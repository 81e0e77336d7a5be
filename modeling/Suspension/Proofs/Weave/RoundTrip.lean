import Suspension.Machine.Script
import Suspension.Proofs.Symbolic.Paths
import Suspension.Proofs.Weave.Resumption
import Suspension.Runner

/-!
# Saving and fetching back

At a suspension site the flow is saved in its context and leaves the method; a copy of that context brings
it back to where it was.

## Main definitions
* `Weaving.AtSite`: a frame in front of the code of a site, with all that the site is to save.
* `Weaving.Back`: a frame behind the code of a site, with all that the site has saved.

## Main results
* `Weaving.site_leaves`: the signal of a site leaves the method, and the context holds the flow.
* `Weaving.site_returns`: a copy of the context brings the flow back.
* `suspension_round_trip`: a flow that is captured comes back.
* `round_trip_broken`, `resumption_broken`: what the premises are for.
-/

namespace Suspension

variable {σ : Type}

/-- The operands at a site: the target of a call, the receiver, and one value for each entry of the
snapshot. -/
structure Operands (kind : InvokeKind) (sort : SiteKind) (tags : List Tag) where
  target : Option Value
  receiver : Option Value
  values : List Value
  some_target : target.isSome = decide (sort = .call)
  kind_target : ∀ v ∈ target, v.kind = .reference
  some_receiver : receiver.isSome = kind.hasReceiver
  kind_receiver : ∀ v ∈ receiver, v.kind = .reference
  kinds : values.map Value.kind = tags.map Tag.kind

/-- The operands on the stack. -/
def Operands.stack {kind : InvokeKind} {sort : SiteKind} {tags : List Tag}
    (o : Operands kind sort tags) : List Value :=
  o.target.toList ++ o.receiver.toList ++ o.values

/-! ## The flow is saved -/

namespace Plan

variable {p : Plan} (cls : Class) (host : Host σ) {f : Frame} {w : World σ} {id : ContextId}
  {c : Context} {kind : InvokeKind} {sort : SiteKind} {tags : List Tag}
  (o : Operands kind sort tags)

/-- The context that a flow was saved in. -/
def saved (c : Context) (site : Nat) (values : List Value) : Context :=
  { c with
    label := Int32.ofNat site
    stack := ⟨c.stack.slots, values.reverse ++ c.stack.entries⟩ }

/-- The target of a call goes to its slot.  Only a call has one; it lies on top of its receiver. -/
theorem performs_parking (spaced : p.slots.Spaced) (holds : f.Holds p.slots.context w id c)
    (hstack : f.stack = o.stack) :
    ∃ l n, Performs cls host (if sort = .call then [.store .reference p.slots.callTarget] else [])
        ⟨f, w⟩ ⟨(f.withLocals l).moved n (o.receiver.toList ++ o.values), w⟩ ∧
      l[p.slots.context]? = f.locals[p.slots.context]? ∧
      ∀ v ∈ o.target, l[p.slots.callTarget]? = some v := by
  obtain ⟨r, hr, -⟩ := holds.handle
  have some_target := o.some_target
  rw [Operands.stack, List.append_assoc] at hstack
  cases ht : o.target with
  | none =>
    rw [ht] at hstack some_target
    have : ¬ sort = .call := by simpa using some_target
    rw [if_neg this]
    have hstack : f.stack = o.receiver.toList ++ o.values := hstack
    refine ⟨f.locals, 0, ?_, rfl, by simp⟩
    rw [← hstack]
    exact .nil _
  | some t =>
    rw [ht] at hstack some_target
    have isCall : sort = .call := by simpa using some_target
    rw [if_pos isCall]
    refine ⟨(f.setLocal p.slots.callTarget t).locals, 1, ?_, ?_, ?_⟩
    · exact .one (Carries.store hstack (by rw [o.kind_target t ht]; rfl))
    · have below : p.slots.context.toNat + (Value.object r).words ≤ p.slots.callTarget.toNat :=
        Nat.le_of_eq spaced.callTarget.symm
      exact (LocalValues.getElem?_store_of_le hr below).trans hr.symm
    · intro v hv
      obtain rfl : t = v := by simpa using hv
      exact Frame.getElem?_locals_setLocal_self ..

/-- The receiver of the call is dropped. -/
theorem performs_dropReceiver (hstack : f.stack = o.receiver.toList ++ o.values) :
    ∃ n, Performs cls host (dropReceiver kind) ⟨f, w⟩ ⟨f.moved n o.values, w⟩ := by
  have some_receiver := o.some_receiver
  unfold dropReceiver
  cases hr : o.receiver with
  | none =>
    rw [hr] at hstack some_receiver
    have : ¬ kind.hasReceiver = true := by simp [← some_receiver]
    have hstack : f.stack = o.values := hstack
    rw [if_neg this, ← hstack]
    exact ⟨0, .nil _⟩
  | some v =>
    rw [hr] at hstack some_receiver
    rw [if_pos (by simp [← some_receiver])]
    have one : v.width = .one := by
      have := o.kind_receiver v hr
      cases v <;> first | rfl | cases this
    exact ⟨1, .one (Carries.pop hstack one)⟩

/-- The flow is saved, and the target of a call is in its slot.  Parking and saving touch no slot of the
context, so its handle is still where it was. -/
theorem performs_saving {site : Nat} {code : List Instr} (spaced : p.slots.Spaced)
    (hcode : p.saveStack site tags = .ok code) (holds : f.Holds p.slots.context w id c)
    (hstack : f.stack = o.stack) :
    ∃ l w', Performs cls host (p.saving site kind sort code) ⟨f, w⟩
        ⟨(f.withLocals l).moved (p.saving site kind sort code).length [], w'⟩ ∧
      l[p.slots.context]? = f.locals[p.slots.context]? ∧
      (∀ v ∈ o.target, l[p.slots.callTarget]? = some v) ∧ w.Reaches id (saved c site o.values) w' := by
  obtain ⟨l, n, parked, keptContext, keptTarget⟩ :=
    performs_parking cls host o spaced holds hstack
  obtain ⟨m, dropped⟩ := performs_dropReceiver cls host o (w := w)
    (f := (f.withLocals l).moved n (o.receiver.toList ++ o.values)) rfl
  have holds' : (((f.withLocals l).moved n (o.receiver.toList ++ o.values)).moved m o.values).Holds
      p.slots.context w id c := holds.after (.refl holds.live) keptContext
  obtain ⟨l', w₁, stacked, kept, reaches⟩ := performs_saveStack cls host spaced hcode holds'
    (List.append_nil _).symm o.kinds
  have context : l'[p.slots.context]? = f.locals[p.slots.context]? :=
    (kept _ (by have := spaced.temp; omega)).trans keptContext
  have noted := performs_setLabel cls host (p := p) (n := Int32.ofNat site)
    (holds'.after (g := (f.withLocals l').moved (n + m + code.length) []) reaches
      (context.trans keptContext.symm))
  simp only [Frame.moved_moved, Frame.withLocals_moved, Frame.withLocals_withLocals] at dropped stacked
  have all := ((parked.append dropped).append stacked).append noted
  refine ⟨l', _, ?_, context, fun v hv => ?_, reaches.trans (World.reaches_replace _)⟩
  · rw [saving]
    rw [← all.length_eq (g := f.withLocals l') (n := n + m + code.length + 3) rfl]
    exact all
  · exact (kept _ (by have := spaced.temp; have := spaced.callTarget; omega)).trans (keptTarget v hv)

end Plan

/-! ## The signal leaves the method -/

theorem SiteKind.hasPayload_of_suspends {sort : SiteKind} (h : sort.suspends = true) :
    sort.hasPayload = decide (sort = .call) := by
  cases sort <;> first | rfl | cases h

namespace Weaving

variable {W : Weaving} (cls : Class) (host : Host σ) {f : Frame} {w : World σ} {id : ContextId}
  {c : Context} {i k : Nat} {kind : InvokeKind} {sort : SiteKind}

/-- The signal of a site leaves the method, and the context holds the flow.  From the throw on, every handler of
the method lets the signal through. -/
theorem site_leaves (hi : i < W.instrs.length) (s : W.plan.SiteCode k kind sort)
    (hp : W.piece i = s.code) (suspends : sort.suspends = true)
    (foreign : cls.callee? sort.constructor = none)
    (o : Operands kind sort (W.plan.snapshot k).stack) (hm : f.method = W.result)
    (hpc : f.pc = W.placeOf i) (holds : f.Holds W.plan.slots.context w id c)
    (hstack : f.stack = o.stack) (cs : List Caller) :
    ∃ n exc fields w', Run.Throws cls host n ⟨f, cs, w⟩ w' exc ∧ w.heap.get? exc = none ∧
      w'.heap.get? exc = some (.plain sort.signalClass fields) ∧
      fields[Service.contextField]? = f.locals[W.plan.slots.context]? ∧
      fields[Service.payloadField]? = o.target ∧ w.Reaches id (Plan.saved c k o.values) w' := by
  obtain ⟨l, w₁, saving, context, parked, reaches⟩ :=
    Plan.performs_saving cls host o spaced s.saved_eq holds hstack
  have holds₁ := holds.after (g := (f.withLocals l).moved (W.plan.saving k kind sort s.saved).length [])
    reaches context
  have some_payload : (W.plan.payload? sort).isSome = sort.hasPayload := by
    rw [SiteKind.hasPayload_of_suspends suspends, Plan.payload?]
    split <;> simp_all
  have payload : (W.plan.payload? sort).bind (l[·]?) = o.target := by
    have some_target := o.some_target
    unfold Plan.payload?
    cases ht : o.target with
    | none =>
      have : ¬ sort = .call := by simpa [ht] using some_target
      rw [if_neg this]
      rfl
    | some v =>
      have : sort = .call := by simpa [ht] using some_target
      rw [if_pos this]
      exact parked v ht
  have moved : ∀ s, W.plan.payload? sort = some s → ∃ v, l[s]? = some v ∧ v.kind.mover = .reference := by
    intro s hs
    rw [hs] at payload
    have some_target := o.some_target
    rw [← SiteKind.hasPayload_of_suspends suspends, ← some_payload, hs] at some_target
    obtain ⟨v, hv⟩ := Option.isSome_iff_exists.1 some_target
    exact ⟨v, payload.trans hv, by rw [o.kind_target v hv]; rfl⟩
  obtain ⟨exc, fields, w₂, building, reaches', fresh, signal, hcontext, hpayload⟩ :=
    Plan.performs_building cls host foreign holds₁ some_payload moved
  have reads := reads_piece hm hpc hi
  rw [hp, Plan.SiteCode.code, Plan.SiteCode.leaving, Plan.throwSignal_eq, ← List.append_assoc,
    List.append_assoc (_ ++ _)] at reads
  have all := saving.append building
  simp only [Frame.moved_moved, Frame.stack_moved] at all
  have behind := reads.right (g := (f.withLocals l).moved ((W.plan.saving k kind sort s.saved).length +
    (W.plan.building sort (W.plan.payload? sort)).length) [.object exc]) rfl
    (by rw [List.length_append]; rfl)
  have left : ∃ n, Run.Throws cls host n ⟨(f.withLocals l).moved
      ((W.plan.saving k kind sort s.saved).length +
        (W.plan.building sort (W.plan.payload? sort)).length) [.object exc], cs, w₂⟩ w₂ exc :=
    signal_leaves (by exact hm) behind.fetch rfl (World.isSignal_of_class signal) cs
  obtain ⟨n, thrown⟩ := left
  refine ⟨_, exc, fields, w₂, (all.takes (P := fun _ => True) reads.left cs
    fun _ _ _ _ _ => trivial).throws rfl thrown, ?_, signal, hcontext.trans context,
    hpayload.trans payload, reaches.trans reaches'⟩
  cases old : w.heap.get? exc with
  | none => rfl
  | some x => rw [reaches.heap.kept exc x old] at fresh; cases fresh

end Weaving

/-! ## The flow comes back -/

/-- What is on top of the stack behind a site: the answer to its call. -/
def Plan.answered (p : Plan) (sort : SiteKind) (answer : Option Value) : List Value :=
  match sort, p.answerType with
  | .call, .ok (some _) => [answer.getD .null]
  | _, _ => []

/-- An answer passes the cast to the type of the answer of a call. -/
def Plan.AnswerFits (p : Plan) (host : Host σ) (w : World σ) (sort : SiteKind)
    (answer : Option Value) : Prop :=
  ∀ t, sort = .call → p.answerType = .ok (some t) → (answer.getD .null).Fits host w t

theorem Plan.SiteCode.answered_eq {p : Plan} {site : Nat} {kind : InvokeKind} {sort : SiteKind}
    (s : p.SiteCode site kind sort) (c : Context) : s.answered c = p.answered sort c.callAnswer := by
  have h := s.answer_eq
  unfold SiteCode.answered Plan.answered
  split at h
  · next isCall =>
    subst isCall
    rw [h]
    cases s.answer <;> rfl
  · next notCall =>
    have none : s.answer = none := (Except.ok.inj h).symm
    rw [none]
    cases sort <;> first | rfl | exact absurd rfl notCall

/-- A frame in front of the first instruction of a suspendable method. -/
structure Weaving.Entered (W : Weaving) (f : Frame) : Prop where
  method : f.method = W.result
  pc : f.pc = 0
  stack : f.stack = []
  receiver : W.method.isStatic = true ∨ ∃ v, f.locals[(0 : Slot)]? = some v ∧ v.kind.mover = .reference

namespace Weaving

variable {W : Weaving} (cls : Class) (host : Host σ) {f : Frame} {w w' : World σ} {id : ContextId}
  {c : Context} {i k : Nat} {kind : InvokeKind} {sort : SiteKind}

/-- A call of the method starts in front of its first instruction. -/
theorem entered_of_enter {args : List Value} (h : Frame.enter W.result args = .ok f)
    (receiver : W.method.isStatic = true ∨ ∃ v rest, args = v :: rest ∧ v.kind.mover = .reference) :
    W.Entered f := by
  obtain ⟨room, rfl⟩ := Frame.enter_eq_ok h
  obtain ⟨method, stack, pc⟩ := Frame.layOut_eq { method := W.result } 0 args
  refine ⟨method, pc, stack, receiver.imp_right ?_⟩
  rintro ⟨v, rest, rfl, hk⟩
  simp only [total_cons] at room
  have kept : ((({ method := W.result } : Frame).setLocal 0 v).layOut (0 + v.words) rest).locals[(0 :
      Slot)]? = some v :=
    Frame.getElem?_layOut (Frame.getElem?_locals_setLocal_self ..) (Nat.le_refl _) (by omega)
  exact ⟨v, kept, hk⟩

/-- A method that is entered with a queued context that continues at a site comes to that site and fetches
the flow back. -/
theorem site_returns (few : W.plan.resumptions.length < 2 ^ 31) (hi : i < W.instrs.length)
    (s : W.plan.SiteCode k kind sort) (hp : W.piece i = s.code) (entered : W.Entered f)
    (queued : w.contexts.pending = some id) (live : w.contexts.get? id = some c)
    (label : c.label = Int32.ofNat k) (intact : w.heap.HandlesIntact) {values entries : List Value}
    (hc : c.stack.entries = values.reverse ++ entries)
    (hv : values.map Value.kind = (W.plan.snapshot k).stack.map Tag.kind)
    (stackFits : ∀ i (hi : i < values.length) (ht : i < (W.plan.snapshot k).stack.length),
      values[i].Fits host w (W.plan.snapshot k).stack[i])
    (slotsFit : ∀ e ∈ W.plan.restoredSlots (W.plan.snapshot k).locals,
      (c.vars.recall e.2.kind.mover (slotIndex e.1)).Fits host w e.2)
    (below : ∀ e ∈ W.plan.restoredSlots (W.plan.snapshot k).locals,
      e.1.toNat + (c.vars.recall e.2.kind.mover (slotIndex e.1)).words ≤ W.base)
    (answerFits : W.plan.AnswerFits host w sort c.callAnswer) (cs : List Caller) :
    ∃ n g w', Run.Takes cls host (W.Plumbing i) n ⟨f, cs, w⟩ ⟨g, cs, w'⟩ ∧ g.method = W.result ∧
      g.pc = W.placeOf (i + 1) ∧ g.stack = W.plan.answered sort c.callAnswer ++ values ∧
      g.locals = (f.setLocal W.plan.slots.context (.object w.nextHandle)).locals.refill c.vars
        (W.plan.restoredSlots (W.plan.snapshot k).locals) ∧
      g.Holds W.plan.slots.context w' id (s.fetched c entries) ∧ w'.outside = w.outside := by
  have holds : (f.setLocal W.plan.slots.context (.object w.nextHandle)).Holds W.plan.slots.context
      w.obtained id c := Plan.holds_obtained queued live intact (by simp)
  have grows : w.heap.Grows w.obtained.heap := Heap.grows_handle ..
  have gone := takes_resumption cls host few hi s hp entered.method entered.pc entered.receiver holds
    label cs
  have answerFits : ∀ t, s.answer = some t → (c.callAnswer.getD .null).Fits host w.obtained t := by
    intro t ht
    have h := s.answer_eq
    split at h
    · next isCall => exact (answerFits t isCall (h.trans (by rw [ht]))).mono grows rfl
    · exact absurd ((Except.ok.inj h).trans ht) (by simp)
  obtain ⟨w', back, reaches⟩ := s.performs_returning cls host
    (f := (f.setLocal W.plan.slots.context (.object w.nextHandle)).goneTo
      (W.placeOf i + s.leaving.length + 1)) ⟨holds.handle, holds.live, holds.intact⟩ hc hv
    (fun i hi ht => (stackFits i hi ht).mono grows rfl) (fun e he => (slotsFit e he).mono grows rfl)
    below answerFits
  have reads := reads_piece (f := f.goneTo (W.placeOf i)) entered.method rfl hi
  rw [hp, Plan.SiteCode.code, ← List.singleton_append, ← List.append_assoc] at reads
  have inside : W.placeOf (i + 1) = W.placeOf i + s.leaving.length + 1 + s.returning.length := by
    rw [placeOf_succ hi, hp, Plan.SiteCode.code, List.length_append, List.length_cons]
    omega
  have taken := back.takes (P := W.Plumbing i) (reads.right rfl
    (by rw [List.length_append]; rfl)) cs fun g hg low high fetched => by
      obtain ⟨j, hj, fetched⟩ := fetched
      have low : W.placeOf i + s.leaving.length + 1 ≤ g.pc := low
      have high : g.pc < W.placeOf i + s.leaving.length + 1 + s.returning.length := high
      exact ⟨hg.trans entered.method, .inr ⟨by omega, by omega⟩, j, fetched, .inl (s.stock_returning j hj).serves⟩
  have kept : ((f.setLocal W.plan.slots.context (.object w.nextHandle)).locals.refill c.vars
      (W.plan.restoredSlots (W.plan.snapshot k).locals))[W.plan.slots.context]? =
      (f.setLocal W.plan.slots.context (.object w.nextHandle)).locals[W.plan.slots.context]? :=
    LocalValues.getElem?_refill_above below
  refine ⟨_, _, w', gone.trans taken, entered.method, inside.symm, ?_, rfl, holds.after reaches kept,
    reaches.outside⟩
  simp [entered.stack, s.answered_eq]

/-- A frame in front of the code of a site: the operands are on the stack, and each slot that the site records
is in the store of the context, with values that are instances of what is known of them. -/
structure AtSite (W : Weaving) (host : Host σ) (i : Nat) (S : SymFrame)
    (o : Operands kind sort S.stack) (f : Frame) (w : World σ) (id : ContextId) (c : Context) : Prop where
  method : f.method = W.result
  place : f.pc = W.placeOf i
  stack : f.stack = o.stack
  apart : f.locals.Apart
  context : f.Holds W.plan.slots.context w id c
  mirrored : ∀ e ∈ W.plan.restoredSlots S.locals,
    f.locals[e.1]? = some (c.vars.recall e.2.kind.mover (slotIndex e.1))
  slotsFit : ∀ e ∈ W.plan.restoredSlots S.locals,
    (c.vars.recall e.2.kind.mover (slotIndex e.1)).Fits host w e.2
  stackFits : ∀ i (hi : i < o.values.length) (ht : i < S.stack.length), o.values[i].Fits host w S.stack[i]

/-- A frame behind the code of a site: the given stack is back, and so is each slot that the site records. -/
structure Back (W : Weaving) (i : Nat) (S : SymFrame) (f : Frame) (stack : List Value) (copy : ContextId)
    (entry g : Frame) (w w' : World σ) : Prop where
  method : g.method = W.result
  place : g.pc = W.placeOf (i + 1)
  stack : g.stack = stack
  slots : ∀ e ∈ W.plan.restoredSlots S.locals, g.locals[e.1]? = f.locals[e.1]?
  receiver : W.method.isStatic = false → g.locals[(0 : Slot)]? = entry.locals[(0 : Slot)]?
  context : ∃ c, g.Holds W.plan.slots.context w' copy c ∧ c.label = noLabel
  outside : w'.outside = w.outside

end Weaving

/-! ## The round trip -/

/-- Continues a captured flow, possibly with an answer. -/
def World.continue (id : ContextId) : Option Value → WorldM σ ContextId
  | none => World.resume id
  | some v => World.answer id v

theorem World.continue_queues {w : World σ} {id : ContextId} {c : Context}
    (h : w.contexts.get? id = some c) (answer : Option Value) :
    ∃ copy w', World.continue id answer w = .ok copy w' ∧
      w.Queues copy { c with
        parent := some id, registered := false, callAnswer := answer.or c.callAnswer } w' := by
  cases answer with
  | none => exact World.resume_queues h
  | some v => exact World.answer_queues h v

namespace Weaving

variable {W : Weaving} {cls : Class} {host : Host σ} {f : Frame} {w : World σ} {id : ContextId}
  {c : Context} {i : Nat} {kind : InvokeKind} {sort : SiteKind} {S : SymFrame}
  {o : Operands kind sort S.stack}

/-- The flow at a site leaves the method by the signal of the site, which carries the context and the
target of a call.  When the context is continued and the method is entered again, it comes back behind the
site with nothing but plumbing on the way, whatever the budget. -/
def RoundTrip (W : Weaving) (cls : Class) (host : Host σ) (i : Nat) (S : SymFrame)
    (o : Operands kind sort S.stack) (f : Frame) (cs : List Caller) (w : World σ) (id : ContextId)
    (c : Context) : Prop :=
  ∃ n exc fields w', Run.Throws cls host n ⟨f, cs, w⟩ w' exc ∧
    w'.heap.get? exc = some (.plain sort.signalClass fields) ∧
    fields[Service.contextField]? = f.locals[W.plan.slots.context]? ∧
    fields[Service.payloadField]? = o.target ∧ w'.outside = w.outside ∧
    ∀ answer, W.plan.AnswerFits host w' sort (answer.or c.callAnswer) →
      ∃ copy w₂, World.continue id answer w' = .ok copy w₂ ∧
        ∀ entry cs', W.Entered entry →
          ∃ n g w₃, Run.Takes cls host (W.Plumbing i) n ⟨entry, cs', w₂⟩ ⟨g, cs', w₃⟩ ∧
            W.Back i S f (W.plan.answered sort (answer.or c.callAnswer) ++ o.values) copy entry g
              w₂ w₃

/-- What a site recorded ends below the reserved slots. -/
theorem AtSite.words_le (h : W.AtSite host i S o f w id c) (below : S.Below W.base) :
    ∀ e ∈ W.plan.restoredSlots S.locals,
      e.1.toNat + (c.vars.recall e.2.kind.mover (slotIndex e.1)).words ≤ W.base := by
  intro e he
  obtain ⟨r, hr, -⟩ := h.context.handle
  exact h.apart.words_le (h.mirrored e he) hr (below e.1 e.2 (Plan.mem_restoredSlots.1 he).1)

/-- The receiver stays in its slot.  It is one word at slot 0, and nothing that is fetched back reaches it. -/
theorem receiver_kept (notStatic : W.method.isStatic = false) (entered : W.Entered f) (context : Value)
    (vars : Store) (locals : Locals) :
    ((f.setLocal W.plan.slots.context context).locals.refill vars (W.plan.restoredSlots locals))[(0 :
      Slot)]? = f.locals[(0 : Slot)]? := by
  obtain ⟨v, hv, hk⟩ := entered.receiver.resolve_left (by simp [notStatic])
  have one : v.words = 1 := by
    cases v <;> first | rfl | cases hk
  obtain ⟨⟨sig, hsig, -, -⟩, -⟩ := Metrics.slots_le W.measured
  have room : 1 ≤ W.base := by
    have := entry_le_base hsig
    simp only [Method.receiverSlots, notStatic, Bool.false_eq_true, if_false] at this
    omega
  have stored : (f.setLocal W.plan.slots.context context).locals[(0 : Slot)]? = some v :=
    LocalValues.getElem?_store_of_le hv (by rw [one]; exact room)
  rw [hv]
  refine LocalValues.getElem?_refill_of_free stored fun e he => ?_
  have ne : e.1 ≠ 0 := (Plan.mem_restoredSlots.1 he).2.resolve_left (by
    rw [W.made.method_eq]
    simp [notStatic])
  have : ¬ e.1.toNat < (0 : Slot).toNat + v.words := fun lt => ne (UInt16.toNat_inj.1 (by
    rw [one] at lt
    exact Nat.lt_one_iff.1 lt))
  refine ⟨ne, ?_⟩
  rw [LocalValues.overlap, decide_eq_false this, Bool.false_and]

/-- The context that was saved is copied, and the copy is what the next call is handed. -/
theorem AtSite.roundTrip (h : W.AtSite host i S o f w id c) {ins : Instr} {m : MemberRef}
    (few : W.shape.sites.length < 2 ^ 31) (hi : W.instrs[i]? = some ins)
    (site : W.config.site? W.className ins = some (kind, sort, m)) (suspends : sort.suspends = true)
    (known : W.shape.site? (W.siteAt i) = some S) (foreign : cls.callee? sort.constructor = none)
    (cs : List Caller) : W.RoundTrip cls host i S o f cs w id c := by
  obtain ⟨s, hp⟩ := piece_site hi site suspends
  have inside : i < W.instrs.length := (List.getElem?_eq_some_iff.1 hi).1
  obtain rfl : W.plan.snapshot (W.siteAt i) = S := by
    rw [Plan.snapshot, W.made.shape_eq, known]
    rfl
  have few : W.plan.resumptions.length < 2 ^ 31 := by
    rw [length_resumptions, ← W.made.sites]
    exact few
  obtain ⟨n, exc, fields, w', thrown, -, signal, carried, payload, reaches⟩ :=
    site_leaves cls host inside s hp suspends foreign o h.method h.place h.context h.stack cs
  refine ⟨n, exc, fields, w', thrown, signal, carried, payload, reaches.outside, fun answer fits => ?_⟩
  obtain ⟨copy, w₂, continued, queued⟩ :=
    World.continue_queues (h.context.live_after reaches) answer
  have live := queued.contexts.get? copy
  rw [if_pos rfl] at live
  have grows : w.heap.Grows w₂.heap := queued.heap ▸ reaches.heap
  have outside : w₂.outside = w.outside := queued.outside.trans reaches.outside
  have below := h.words_le (below_site known)
  refine ⟨copy, w₂, continued, fun entry cs' entered => ?_⟩
  obtain ⟨n, g, w₃, taken, method, place, stack, locals, holds, outside'⟩ :=
    site_returns cls host few inside s hp entered queued.contexts.pending live rfl
      (grows.intact h.context.intact) rfl o.kinds
      (fun i hi ht => (h.stackFits i hi ht).mono grows outside)
      (fun e he => (h.slotsFit e he).mono grows outside) below
      (fun t isCall ht => (fits t isCall ht).mono (queued.heap ▸ .refl _) queued.outside) cs'
  refine ⟨n, g, w₃, taken, method, place, stack, fun e he => ?_, fun notStatic => ?_,
    ⟨_, holds, rfl⟩, outside'⟩
  · rw [locals]
    exact LocalValues.getElem?_refill h.apart (Plan.nodup_restoredSlots _) h.mirrored e he
  · rw [locals]
    exact receiver_kept notStatic entered ..

end Weaving

/-- What is captured at a suspension site comes back.  The two premises beside those on the state cannot be
dropped: the class that is run must not bring its own constructor of the signal, and an answer must be an
instance of the type of the answer. -/
theorem suspension_round_trip {className : String} {method result : Method} {config : Config}
    (transformed : (method.transform className config).result = .ok (some result)) :
    ∃ W : Weaving, W.className = className ∧ W.method = method ∧ W.config = config ∧
      W.result = result ∧
      ∀ {σ : Type} (cls : Class) (host : Host σ) {i : Nat} {ins : Instr} {kind : InvokeKind}
        {sort : SiteKind} {m : MemberRef} {S : SymFrame} (o : Operands kind sort S.stack) {f : Frame}
        {w : World σ} {id : ContextId} {c : Context} (cs : List Caller),
        W.shape.sites.length < 2 ^ 31 → W.instrs[i]? = some ins →
        config.site? className ins = some (kind, sort, m) → sort.suspends = true →
        W.shape.site? (W.siteAt i) = some S → cls.callee? sort.constructor = none →
        W.AtSite host i S o f w id c → W.RoundTrip cls host i S o f cs w id c := by
  obtain ⟨W, rfl, hmethod, rfl, hresult⟩ := Weaving.exists_of_transform transformed
  refine ⟨W, rfl, hmethod, rfl, hresult, ?_⟩
  intro σ cls host i ins kind sort m S o f w id c cs few hi site suspends known foreign atSite
  exact atSite.roundTrip few hi site suspends known foreign cs

/-! ### A state in which a flow is captured -/

namespace RoundTrip

/-- A static method with one pause, at which its parameter is on the stack and in its slot. -/
def pausing : Method where
  access := staticFlag
  name := "execute"
  descriptor := "(I)V"
  maxLocals := 1
  code.instrs := [.load .int 0, .pause, .plain (.shuffle .pop), .plain (.leave none)]

/-- What is known at the pause. -/
def pausingSnapshot : SymFrame := ⟨Locals.store ∅ 0 .int, [.int]⟩

/-- The operands at the pause. -/
def pausingOperands : Operands .static .pause pausingSnapshot.stack where
  target := none
  receiver := none
  values := [.int 7]
  some_target := rfl
  kind_target := by simp
  some_receiver := rfl
  kind_receiver := by simp
  kinds := rfl

/-- What is known of the method. -/
def pausingShape : Option Shape := do
  let m ← (Metrics.measure "app/C" pausing {}).toOption
  (Shape.ofMethod "app/C" pausing {} m).result.toOption

/-- The context of the flow, which has the parameter. -/
def pausingContext : Context := { vars := Store.put {} (slotIndex 0) (.int 7) }

theorem exists_atSite {W : Weaving} (hclass : W.className = "app/C") (hmethod : W.method = pausing)
    (hconfig : W.config = {}) :
    ∃ (f : Frame) (w : World Unit) (id : ContextId), W.shape.sites.length < 2 ^ 31 ∧
      W.shape.site? (W.siteAt 1) = some pausingSnapshot ∧
      W.AtSite (Host.nothing Unit) 1 pausingSnapshot pausingOperands f w id pausingContext := by
  have shaped : pausingShape = some W.shape := by
    have := W.shaped
    rw [pausingShape, ← hclass, ← hmethod, ← hconfig, W.measured]
    exact congrArg Except.toOption W.shaped
  have known : pausingShape.bind (·.site? 0) = some pausingSnapshot := by decide +kernel
  have few : pausingShape.map (decide <| ·.sites.length < 2 ^ 31) = some true := by decide +kernel
  rw [shaped] at known few
  have first : W.siteAt 1 = 0 := by
    rw [Weaving.siteAt, Weaving.instrs, hclass, hmethod, hconfig]
    decide
  have room : (0 : Slot).toNat + (Value.int 7).words ≤ W.base :=
    Weaving.slot_le_base (i := .load .int 0) (by rw [Weaving.instrs, hmethod]; decide) rfl
  have stored : (LocalValues.store ∅ 0 (.int 7))[(0 : Slot)]? = some (.int 7) := by
    rw [LocalValues.getElem?_store, if_pos rfl]
  have locals (e : Slot × Tag) (he : e ∈ W.plan.restoredSlots pausingSnapshot.locals) :
      e = (0, .int) := by
    rcases Locals.getElem?_of_store (Plan.mem_restoredSlots.1 he).1 with ⟨h0, ht⟩ | none
    · exact Prod.ext h0 ht
    · simp at none
  refine ⟨⟨W.result, (LocalValues.store ∅ 0 (.int 7)).store W.plan.slots.context (.object ⟨0⟩),
      [.int 7], W.placeOf 1⟩,
    { heap := (Heap.handle {} ⟨0⟩ .context).2
      contexts := (Contexts.add {} pausingContext).2
      outside := () }, ⟨0⟩, by simpa using few, first ▸ known, ?_⟩
  refine ⟨rfl, rfl, rfl, (LocalValues.apart_empty.store _ _).store _ _, ⟨⟨⟨0⟩, ?_, rfl⟩, rfl, ?_⟩,
    fun e he => ?_, fun e he => ?_, fun i hi ht t h => ?_⟩
  · rw [LocalValues.getElem?_store, if_pos rfl]
  · exact (Heap.grows_handle ..).intact fun id face r h => by cases h
  · obtain rfl := locals e he
    rw [LocalValues.getElem?_store_of_le stored room]
    decide
  · obtain rfl := locals e he
    intro t ht
    cases ht
  · obtain rfl : i = 0 := Nat.lt_one_iff.1 ht
    cases h

end RoundTrip

theorem pausing_round_trip :
    ∃ (W : Weaving) (f : Frame) (w : World Unit) (id : ContextId), W.method = RoundTrip.pausing ∧
      f.stack = [.int 7] ∧
      W.RoundTrip ⟨1, "app/C", some objectClass, [], []⟩ (Host.nothing Unit) 1
        RoundTrip.pausingSnapshot RoundTrip.pausingOperands f [] w id RoundTrip.pausingContext ∧
      ∃ entry, Frame.enter W.result [.int 0] = .ok entry ∧ W.Entered entry := by
  obtain ⟨result, transformed⟩ : ∃ result,
      (RoundTrip.pausing.transform "app/C" {}).result = .ok (some result) :=
    exists_ok_some (by decide +kernel)
  obtain ⟨W, hclass, hmethod, hconfig, -, trip⟩ := suspension_round_trip transformed
  obtain ⟨f, w, id, few, known, atSite⟩ := RoundTrip.exists_atSite hclass hmethod hconfig
  have paused : W.instrs[1]? = some .pause := by
    rw [Weaving.instrs, hmethod]
    rfl
  have static : W.method.isStatic = true := by
    rw [hmethod]
    rfl
  obtain ⟨entry, enters⟩ : ∃ entry, Frame.enter W.result [.int 0] = .ok entry := ⟨_, rfl⟩
  exact ⟨W, f, w, id, hmethod, atSite.stack,
    trip _ _ _ [] few paused (Config.site?_pause rfl rfl _) rfl known (by decide) atSite,
    entry, enters, Weaving.entered_of_enter enters (.inl static)⟩

/-! ### What the premises are for -/

namespace RoundTrip

/-- A static method that asks for a text and drops it. -/
def asking : Method where
  access := staticFlag
  name := "execute"
  descriptor := "()V"
  maxLocals := 0
  code.instrs := [.plain .aconstNull,
    .invoke .static ⟨"resumable/ContinuableSupport", "call", "(Ljava/lang/Object;)Ljava/lang/String;"⟩,
    .plain (.shuffle .pop), .plain (.leave none)]

/-- The class of the exception in which the method ends when it is answered by an object of a class. -/
def answeredBy (className : String) : Option String := do
  let config : Config := { callDescriptor := "(Ljava/lang/Object;)Ljava/lang/String;" }
  let m ← (asking.transform "app/C" config).result.toOption.join
  let (r, w) := Runner.create ⟨1, "app/C", some objectClass, [], [m]⟩ config 1000 ()
  match r.start (Host.nothing Unit) [] w with
  | .ok (.called id _) w =>
    let (o, heap) := w.heap.alloc (.new className)
    match r.answer (Host.nothing Unit) id (.object o) { w with heap } with
    | .ok (.threw exc) w => (w.heap.classOf exc).toOption
    | _ => none
  | _ => none

/-- A static method with nothing but a pause. -/
def resting : Method where
  access := staticFlag
  name := "execute"
  descriptor := "()V"
  maxLocals := 0
  code.instrs := [.pause, .plain (.leave none)]

/-- A constructor that does nothing. -/
def idleConstructor : Method where
  access := 1
  name := Service.constructorName
  descriptor := SiteKind.pause.constructorDescriptor
  maxLocals := 2
  code.instrs := [.plain (.leave none)]

/-- Why the first run fails in a class of a name that has a constructor which does nothing. -/
def pausedIn (className : String) : Option ExecError := do
  let m ← (resting.transform className {}).result.toOption.join
  let (r, w) := Runner.create ⟨1, className, some objectClass, [], [m, idleConstructor]⟩ {} 1000 ()
  match r.start (Host.nothing Unit) [] w with
  | .ok _ _ => none
  | .error e _ => some e

end RoundTrip

/-- An answer of another class does not get past the site, and a signal that the class builds itself does not
carry the context. -/
theorem round_trip_broken :
    RoundTrip.answeredBy "a/B" = some BuiltinException.classCast.className ∧
      RoundTrip.pausedIn SiteKind.pause.signalClass = some (.typeMismatch .context .null) := by
  decide +kernel

namespace RoundTrip

/-- How a run ended that is not to be continued: by an exception of a class, or without. -/
def ending : EStateM.Result ExecError (World σ) Outcome → Option (Option String)
  | .ok (.completed _) _ => some none
  | .ok (.threw exc) w => (w.heap.classOf exc).toOption.map some
  | _ => none

/-- How a method of two parameters ends for two zeros.  Where it does not suspend itself, a pause does
nothing; where it does, it is continued once. -/
def driven (m : Method) : Option (Option String) :=
  let host := Script.host { rules := [(("resumable/ContinuableSupport", "pause"), .nothing)] }
  let (r, w) := Runner.create ⟨1, "app/C", some objectClass, [], [m]⟩ { entryDescriptor := "(II)V" } 1000 []
  match r.start host [.int 0, .int 0] w with
  | .ok (.paused id) w => ending (r.resume host id w)
  | ended => ending ended

end RoundTrip

/-- That what is fetched back is of the recorded classes is not for free: they are those of one path, and a
flow that came on another one fails when it is continued. -/
theorem resumption_broken :
    RoundTrip.driven nullJoin = some none ∧
      (nullJoin.transform "app/C" {}).result.toOption.join.bind RoundTrip.driven =
        some (some BuiltinException.classCast.className) := by
  decide +kernel

end Suspension
