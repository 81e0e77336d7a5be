import Mathlib.Algebra.Group.Nat.Defs
import Suspension.Proofs.Weave.Signals
import Suspension.Proofs.Weave.Slots

/-!
# Entering and resuming

A suspendable method starts by obtaining its context.  If that context continues at a site, the method
goes there and fetches the flow back.

## Main definitions
* `World.obtained`: the world after a context was handed out.

## Main results
* `Plan.performs_obtaining`: the context is in its slot.
* `Plan.tableTarget_resumption`: the dispatch finds the site of a label.
* `Plan.performs_returning`: the flow is fetched back.
-/

namespace Suspension

variable {σ : Type} (cls : Class) (host : Host σ) {f : Frame} {w : World σ} {v : Value}
  {rest : List Value}

/-! ## The context is obtained -/

/-- The context that is handed out next. -/
def World.nextContext (w : World σ) : ContextId := w.contexts.createOrReset.1

/-- The handle of the context that is handed out next. -/
def World.nextHandle (w : World σ) : ObjectId := (w.heap.handle w.nextContext .context).1

/-- The world after a context was handed out. -/
def World.obtained (w : World σ) : World σ :=
  { w with
    contexts := w.contexts.createOrReset.2
    heap := (w.heap.handle w.nextContext .context).2 }

theorem Carries.createOrReset (h : f.stack = v :: rest) :
    (Instr.invoke .static Service.createOrResetContext).Carries cls host ⟨f, w⟩
      ⟨f.moved 1 (.object w.nextHandle :: rest), w.obtained⟩ := by
  refine ⟨fun fuel => ?_, rfl, rfl⟩
  have sig : callSignature Service.createOrResetContext.descriptor =
      .ok ⟨[.object], some (.ref Service.contextClass)⟩ := eq_ok_of_toOption (by decide +kernel)
  have pops : Frame.popMany 1 { f with pc := f.pc + 1 } =
      .ok [v] ⟨f.method, f.locals, rest, f.pc + 1⟩ := by
    have h : f.stack = [v].reverse ++ rest := h
    exact Frame.popMany_apply (f := { f with pc := f.pc + 1 }) h
  have served : World.callService Service.createOrResetContext none [v] (w.paying fuel) =
      .ok (some (.object w.nextHandle)) (w.obtained.paying fuel) := by
    simp [World.callService, World.changeContexts]
    exact ⟨rfl, rfl⟩
  have owner : Service.createOrResetContext.owner = Service.contextClass := rfl
  simp [Instr.step, MemberRef.call, Situation.past, Situation.paying, sig, pops,
    InvokeKind.hasReceiver, owner, served, MemberRef.call.finish, receive_eq, received]
  rfl

namespace Plan

variable {p : Plan}

/-- The context is in its slot. -/
theorem performs_obtaining (h : p.method.isStatic = true ∨
      ∃ v, f.locals[(0 : Slot)]? = some v ∧ v.kind.mover = .reference) :
    Performs cls host p.obtaining ⟨f, w⟩
      ⟨(f.setLocal p.slots.context (.object w.nextHandle)).moved 3 f.stack, w.obtained⟩ := by
  have pushed : ∃ v, p.loadReceiver.Carries cls host ⟨f, w⟩ ⟨f.moved 1 (v :: f.stack), w⟩ := by
    unfold loadReceiver
    split
    · exact ⟨_, Carries.aconstNull⟩
    · next notStatic =>
      obtain ⟨v, hv, hk⟩ := h.resolve_left notStatic
      exact ⟨v, Carries.load hv hk⟩
  obtain ⟨v, pushed⟩ := pushed
  have handed : (Instr.invoke .static Service.createOrResetContext).Carries cls host
      ⟨f.moved 1 (v :: f.stack), w⟩ ⟨f.moved 2 (.object w.nextHandle :: f.stack), w.obtained⟩ :=
    Carries.createOrReset cls host rfl
  exact .cons pushed (.cons handed (.one (Carries.store rfl rfl)))

/-- The slot of the context holds a context that was queued. -/
theorem holds_obtained {id : ContextId} {c : Context} (queued : w.contexts.pending = some id)
    (live : w.contexts.get? id = some c) (intact : w.heap.HandlesIntact)
    (slot : f.locals[p.slots.context]? = some (.object w.nextHandle)) :
    f.Holds p.slots.context w.obtained id c := by
  have handed : w.contexts.createOrReset =
      (id, { w.contexts with pending := none, current := some id }) := by
    have : w.contexts.contains id = true := Contexts.contains_of_get? live
    simp [Contexts.createOrReset, queued, Option.filter_some, this]
  have same : w.nextContext = id := congrArg Prod.fst handed
  refine ⟨⟨_, slot, ?_⟩, ?_, (Heap.grows_handle ..).intact intact⟩
  · rw [← same]
    exact Heap.get?_handle intact ..
  · rw [World.obtained, handed]
    exact live

/-! ## The dispatch -/

/-- The dispatch finds the site of a label. -/
theorem tableTarget_resumption {k : Nat} {l : Label} (h : p.resumptions[k]? = some l)
    (few : p.resumptions.length < 2 ^ 31) :
    tableTarget 0 (Int32.ofNat p.resumptions.length - 1) p.start p.resumptions (Int32.ofNat k) = l := by
  have hk : k < p.resumptions.length := (List.getElem?_eq_some_iff.1 h).1
  have key : (Int32.ofNat k).toInt = k := Int32.toInt_ofNat_of_lt (by omega)
  have high : (Int32.ofNat p.resumptions.length - 1).toInt = p.resumptions.length - 1 :=
    toInt_highest (by omega) few
  have inRange : (0 : Int32) ≤ Int32.ofNat k ∧
      Int32.ofNat k ≤ Int32.ofNat p.resumptions.length - 1 := by
    simp only [Int32.le_iff_toInt_le, key, high]
    exact ⟨Int.natCast_nonneg k, by omega⟩
  rw [tableTarget, if_pos inRange, key]
  simp [h]

/-- Without a site the dispatch goes to the start. -/
theorem tableTarget_noLabel :
    tableTarget 0 (Int32.ofNat p.resumptions.length - 1) p.start p.resumptions noLabel = p.start := by
  rw [tableTarget, if_neg]
  rintro ⟨low, -⟩
  exact absurd low (by decide)

end Plan

namespace Plan

variable {p : Plan} {id : ContextId} {c : Context}

/-! ## The flow is fetched back -/

/-- What a site leaves on top of the stack: the answer to its call. -/
def SiteCode.answered {site : Nat} {kind : InvokeKind} {sort : SiteKind}
    (s : p.SiteCode site kind sort) (c : Context) : List Value :=
  (s.answer.map fun _ => c.callAnswer.getD .null).toList

/-- A context from which a flow was fetched back. -/
def SiteCode.fetched {site : Nat} {kind : InvokeKind} {sort : SiteKind}
    (s : p.SiteCode site kind sort) (c : Context) (entries : List Value) : Context :=
  { c with
    label := noLabel
    stack := ⟨c.stack.slots, entries⟩
    callAnswer := if s.answer.isSome then none else c.callAnswer }

theorem performs_fetching {answer : Option Tag} (holds : f.Holds p.slots.context w id c)
    (fits : ∀ t, answer = some t → (c.callAnswer.getD .null).Fits host w t) :
    ∃ w', Performs cls host (p.fetching answer) ⟨f, w⟩
        ⟨f.moved (p.fetching answer).length
          ((answer.map fun _ => c.callAnswer.getD .null).toList ++ f.stack), w'⟩ ∧
      w.Reaches id { c with callAnswer := if answer.isSome then none else c.callAnswer } w' := by
  cases answer with
  | none => exact ⟨w, .nil _, .refl holds.live⟩
  | some t =>
    have taken := performs_getCallAnswer cls host holds
    have reaches : w.Reaches id { c with callAnswer := none }
        (w.replace id { c with callAnswer := none }) := World.reaches_replace _
    have cast := performs_castTo cls host (f := f.moved 2 (c.callAnswer.getD .null :: f.stack)) rfl
      ((fits t rfl).after reaches)
    refine ⟨_, ?_, reaches⟩
    have all := taken.append cast
    rw [Frame.moved_moved] at all
    rw [show (p.fetching (some t)).length = 2 + (castTo t).length from List.length_append]
    exact all

theorem restoreLocals_eq_ok {site : Nat} {locals : Locals} {code : List Instr}
    (h : p.restoreLocals site locals = .ok code) :
    ∃ codes, ((p.restoredSlots locals).mapM fun e => p.restoreLocal site e.1 e.2) = .ok codes ∧
      code = codes.flatten := by
  obtain ⟨codes, hcodes, h⟩ := bind_eq_ok.1 h
  cases h
  exact ⟨codes, hcodes, rfl⟩

theorem restoreStack_eq_ok {site : Nat} {tags : List Tag} {code : List Instr}
    (h : p.restoreStack site tags = .ok code) :
    ∃ codes, tags.reverse.mapM (p.restoreEntry site) = .ok codes ∧ code = codes.flatten := by
  rw [restoreStack_eq] at h
  obtain ⟨codes, hcodes, rfl⟩ := map_eq_ok.1 h
  exact ⟨codes, hcodes, rfl⟩

/-- The flow is fetched back.  Four parts, each from where the one before it leaves off: the label, the slots,
the stack, the answer. -/
theorem SiteCode.performs_returning {site : Nat} {kind : InvokeKind} {sort : SiteKind}
    (s : p.SiteCode site kind sort) {values entries : List Value}
    (holds : f.Holds p.slots.context w id c) (hc : c.stack.entries = values.reverse ++ entries)
    (hv : values.map Value.kind = (p.snapshot site).stack.map Tag.kind)
    (stackFits : ∀ i (hi : i < values.length) (ht : i < (p.snapshot site).stack.length),
      values[i].Fits host w (p.snapshot site).stack[i])
    (slotsFit : ∀ e ∈ p.restoredSlots (p.snapshot site).locals,
      (c.vars.recall e.2.kind.mover (slotIndex e.1)).Fits host w e.2)
    (below : ∀ e ∈ p.restoredSlots (p.snapshot site).locals,
      e.1.toNat + (c.vars.recall e.2.kind.mover (slotIndex e.1)).words ≤ p.slots.context.toNat)
    (answerFits : ∀ t, s.answer = some t → (c.callAnswer.getD .null).Fits host w t) :
    ∃ w', Performs cls host s.returning ⟨f, w⟩
        ⟨(f.withLocals (f.locals.refill c.vars (p.restoredSlots (p.snapshot site).locals))).moved
          s.returning.length (s.answered c ++ values ++ f.stack), w'⟩ ∧
      w.Reaches id (s.fetched c entries) w' := by
  obtain ⟨slotCodes, hslots, hlocals⟩ := restoreLocals_eq_ok s.locals_eq
  obtain ⟨entryCodes, hentries, hstack⟩ := restoreStack_eq_ok s.stack_eq
  have cleared := performs_clearLabel cls host holds
  have reaches₁ : w.Reaches id { c with label := noLabel }
      (w.replace id { c with label := noLabel }) := World.reaches_replace _
  have holds₁ : (f.moved 2 f.stack).Holds p.slots.context (w.replace id { c with label := noLabel })
      id { c with label := noLabel } := holds.after reaches₁ rfl
  obtain ⟨w₂, slots, reaches₂⟩ := performs_restoreSlots cls host hslots holds₁
    (fun e he => (slotsFit e he).after reaches₁) below
  have kept : (f.locals.refill c.vars (p.restoredSlots (p.snapshot site).locals))[p.slots.context]? =
      f.locals[p.slots.context]? := LocalValues.getElem?_refill_above below
  have holds₂ := holds₁.after (g := (f.withLocals (f.locals.refill c.vars
    (p.restoredSlots (p.snapshot site).locals))).moved (2 + slotCodes.flatten.length) f.stack)
    reaches₂ kept
  have lengths : values.length = (p.snapshot site).stack.length := by
    simpa using congrArg List.length hv
  obtain ⟨w₃, stacked, reaches₃⟩ := performs_restoreEntries cls host hentries holds₂ hc
    (by simp [List.map_reverse, hv]) fun i hi ht => by
      rw [List.getElem_reverse, List.getElem_reverse]
      simp only [← lengths]
      exact ((stackFits _ _ _).after reaches₁).after reaches₂
  have holds₃ := holds₂.after (g := (f.withLocals (f.locals.refill c.vars
    (p.restoredSlots (p.snapshot site).locals))).moved
      (2 + slotCodes.flatten.length + entryCodes.flatten.length) (values ++ f.stack)) reaches₃ rfl
  obtain ⟨w₄, last, reaches₄⟩ := performs_fetching cls host holds₃
    fun t (ht : s.answer = some t) => (((answerFits t ht).after reaches₁).after reaches₂).after reaches₃
  refine ⟨w₄, ?_, ((reaches₁.trans reaches₂).trans reaches₃).trans reaches₄⟩
  simp only [Frame.withLocals_moved, Frame.locals_moved, Frame.moved_moved, Frame.stack_moved,
    List.reverse_reverse] at slots stacked last
  have all := ((cleared.append slots).append stacked).append last
  have length : s.returning.length = 2 + slotCodes.flatten.length + entryCodes.flatten.length +
      (p.fetching s.answer).length := by
    rw [returning, hlocals, hstack, List.length_append, List.length_append, List.length_append]
    rfl
  rw [length, answered, List.append_assoc, returning, hlocals, hstack]
  exact all

end Plan

/-! ## From the entry to a site -/

/-- A frame in front of an instruction that was put in to enter the method or for a site, and that calls
nothing but services. -/
def Weaving.Plumbing (W : Weaving) (i : Nat) (g : Frame) : Prop :=
  g.method = W.result ∧
    (g.pc < W.front.length ∨ W.placeOf i ≤ g.pc ∧ g.pc < W.placeOf (i + 1)) ∧
    ∃ j, Run.fetch g = .ok j ∧ (j.Serves ∨ ∃ l, j = .label l)

namespace Weaving

variable {W : Weaving} {id : ContextId} {c : Context} {i k : Nat} {kind : InvokeKind}
  {sort : SiteKind}

theorem dispatch_eq {l : Label} (h : W.plan.resumptions[k]? = some l) :
    W.plan.dispatch = [W.plan.loadContext, callService Service.getLabel,
      .tableSwitch 0 (Int32.ofNat W.plan.resumptions.length - 1) W.plan.start W.plan.resumptions] := by
  have : W.plan.resumptions.isEmpty = false := by
    cases hr : W.plan.resumptions with
    | nil => simp [hr] at h
    | cons => rfl
  simp [Plan.dispatch, this]

/-- A method with a suspension site asks its context where to go. -/
theorem takes_dispatch {pc : Nat} {l : Label} (h : W.plan.resumptions[k]? = some l)
    (hm : f.method = W.result) (hpc : f.pc = 0)
    (receiver : W.method.isStatic = true ∨
      ∃ v, f.locals[(0 : Slot)]? = some v ∧ v.kind.mover = .reference)
    (holds : (f.setLocal W.plan.slots.context (.object w.nextHandle)).Holds W.plan.slots.context
      w.obtained id c)
    (target : f.target (tableTarget 0 (Int32.ofNat W.plan.resumptions.length - 1) W.plan.start
      W.plan.resumptions c.label) = .ok pc) (cs : List Caller) :
    Run.Takes cls host (W.Plumbing i) 6 ⟨f, cs, w⟩
      ⟨(f.setLocal W.plan.slots.context (.object w.nextHandle)).goneTo pc, cs, w.obtained⟩ := by
  obtain ⟨sig, -, -, front⟩ := Plan.prologue_eq_ok W.opened
  have dispatch := dispatch_eq h
  have reads := reads_front hm hpc
  rw [front, List.append_assoc] at reads
  have size : 6 < W.front.length := by
    rw [front, dispatch]
    simp [Plan.obtaining]
  have serves {g : Frame} (hg : g.method = f.method) (high : g.pc < f.pc + 6)
      (h : ∃ j ∈ W.plan.obtaining ++ W.plan.dispatch, Run.fetch g = .ok j) : W.Plumbing i g := by
    obtain ⟨j, hj, fetched⟩ := h
    refine ⟨hg.trans hm, .inl (by omega), j, fetched, .inl ?_⟩
    exact (List.mem_append.1 hj).elim (Plan.serves_obtaining j) (Plan.serves_dispatch j)
  have asking : Performs cls host (W.plan.obtaining ++ [W.plan.loadContext, callService Service.getLabel])
      ⟨f, w⟩ ⟨(f.setLocal W.plan.slots.context (.object w.nextHandle)).moved 5 (.int c.label :: f.stack),
        w.obtained⟩ :=
    (W.plan.performs_obtaining cls host (by rw [W.made.method_eq]; exact receiver)).append
      (W.plan.performs_getLabel cls host (holds.moved 3 f.stack))
  rw [dispatch] at reads
  have reads : f.Reads ((W.plan.obtaining ++ [W.plan.loadContext, callService Service.getLabel]) ++
      .tableSwitch 0 (Int32.ofNat W.plan.resumptions.length - 1) W.plan.start W.plan.resumptions ::
        .label W.plan.start :: W.plan.recordParams W.plan.method.receiverSlots sig.params) := by
    simpa using reads
  have fetched := (reads.right (g := (f.setLocal W.plan.slots.context (.object w.nextHandle)).moved 5
    (.int c.label :: f.stack)) rfl rfl).fetch
  have asked := asking.takes reads.left cs (P := W.Plumbing i) fun g hg _ high h => by
    obtain ⟨j, hj, fetched⟩ := h
    refine serves hg (Nat.lt_trans high (by simp [Plan.obtaining])) ⟨j, ?_, fetched⟩
    rw [dispatch]
    simp only [List.mem_append, List.mem_cons, List.not_mem_nil, or_false] at hj ⊢
    rcases hj with hj | rfl | rfl
    · exact .inl hj
    · exact .inr (.inl rfl)
    · exact .inr (.inr (.inl rfl))
  have switched : Run.Leads cls host
      ⟨(f.setLocal W.plan.slots.context (.object w.nextHandle)).moved 5 (.int c.label :: f.stack), cs,
        w.obtained⟩
      ⟨(f.setLocal W.plan.slots.context (.object w.nextHandle)).goneTo pc, cs, w.obtained⟩ :=
    Run.Leads.tableSwitch fetched rfl target cs
  exact asked.trans (.one (serves rfl (by simp) ⟨_, by simp [dispatch], fetched⟩) switched)

/-- With a queued context that continues at a site, the method goes from its entry to that site.  The table of
the dispatch has the label of the site at its number. -/
theorem takes_resumption (few : W.plan.resumptions.length < 2 ^ 31) (hi : i < W.instrs.length)
    (s : W.plan.SiteCode k kind sort) (hp : W.piece i = s.code) (hm : f.method = W.result)
    (hpc : f.pc = 0)
    (receiver : W.method.isStatic = true ∨
      ∃ v, f.locals[(0 : Slot)]? = some v ∧ v.kind.mover = .reference)
    (holds : (f.setLocal W.plan.slots.context (.object w.nextHandle)).Holds W.plan.slots.context
      w.obtained id c)
    (label : c.label = Int32.ofNat k) (cs : List Caller) :
    Run.Takes cls host (W.Plumbing i) 7 ⟨f, cs, w⟩
      ⟨(f.setLocal W.plan.slots.context (.object w.nextHandle)).goneTo
        (W.placeOf i + s.leaving.length + 1), cs, w.obtained⟩ := by
  have placed : W.stream[W.placeOf i + s.leaving.length]? = some (.label s.resumption) :=
    getElem?_placeOf_add (by simp [hp, Plan.SiteCode.code])
  have inside : W.placeOf i + s.leaving.length < W.placeOf (i + 1) := by
    rw [placeOf_succ hi, hp, Plan.SiteCode.code, List.length_append, List.length_cons]
    omega
  have target := target_eq hm placed
  rw [← Plan.tableTarget_resumption s.resumption_eq few, ← label] at target
  have gone := takes_dispatch cls host (i := i) s.resumption_eq hm hpc receiver holds target cs
  have fetched : Run.fetch ((f.setLocal W.plan.slots.context (.object w.nextHandle)).goneTo
      (W.placeOf i + s.leaving.length)) = .ok (.label s.resumption) := by
    exact fetch_eq (f := (f.setLocal W.plan.slots.context (.object w.nextHandle)).goneTo _) hm placed
  exact gone.trans (.one ⟨hm, .inr ⟨by simp, inside⟩, _, fetched, .inr ⟨_, rfl⟩⟩
    ((Carries.label s.resumption).leads fetched cs))

end Weaving

end Suspension
