import Suspension.Proofs.Machine.Owned
import Suspension.Proofs.Weave.Settling

/-!
# Calls of a suspendable method

A call of a suspendable method settles: it obtains a context of its own and copies its parameters, or it
goes to the site at which the context continues, with no slot set.

## Main definitions
* `spread`: where arguments are laid out.
* `Weaving.Filling`: a mirror that is complete up to a slot.

## Main results
* `Weaving.settles_recordParams`: the parameters are copied.
* `Weaving.settles_entry`: a call settles.
-/

namespace Suspension

variable {σ : Type}

/-! ## Parameters -/

theorem storage?_of_fieldType? {cs rest : List Char} {t : Tag} (h : fieldType? cs = some (t, rest)) :
    t.kind.storage?.isSome = true := by
  have refs {name : String} : (Tag.ref name).kind.storage?.isSome = true := rfl
  unfold fieldType? at h
  split at h
  · cases h
  · next c cs =>
    split at h
    · next t' known =>
      cases h
      unfold primitive? at known
      split at known <;> cases known <;> rfl
    · split at h
      · obtain ⟨⟨name, r⟩, -, he⟩ := Option.map_eq_some_iff.1 h
        cases he
        exact refs
      · split at h
        · obtain ⟨⟨elem, r⟩, -, he⟩ := Option.map_eq_some_iff.1 h
          cases he
          exact refs
        · cases h

theorem storage?_of_fieldTypes (cs : List Char) :
    ∀ t ∈ (fieldTypes cs).1, t.kind.storage?.isSome = true := by
  fun_induction fieldTypes cs with
  | case1 cs => simp
  | case2 cs t rest h _ more ih =>
    intro u hu
    rcases List.mem_cons.1 hu with rfl | hu
    · exact storage?_of_fieldType? h
    · exact ih u hu

/-- Parameters can be stored. -/
theorem Signature.storage?_of_parse {text : String} {s : Signature} (h : parse text = .ok s) :
    ∀ t ∈ s.params, t.kind.storage?.isSome = true := by
  unfold parse at h
  split at h
  · next found =>
    cases h
    unfold ofChars? at found
    split at found
    · next cs _ =>
      split at found
      · next params rest split =>
        obtain ⟨result, -, he⟩ := Option.map_eq_some_iff.1 found
        cases he
        have stored := storage?_of_fieldTypes cs
        rwa [split] at stored
      · cases found
    · cases found
  · cases h

/-- Where arguments are laid out from a slot on. -/
def spread : Nat → List Value → List (Nat × Value)
  | _, [] => []
  | slot, v :: vs => (slot, v) :: spread (slot + v.words) vs

theorem le_of_mem_spread {slot p : Nat} {args : List Value} {v : Value}
    (h : (p, v) ∈ spread slot args) : slot ≤ p := by
  induction args generalizing slot with
  | nil => cases h
  | cons u us ih =>
    rcases List.mem_cons.1 h with e | h
    · cases e
      exact Nat.le_refl _
    · exact Nat.le_trans (Nat.le_add_right ..) (ih h)

/-- The value that is laid out at the first slot is the first one. -/
theorem eq_cons_of_mem_spread {slot : Nat} {args : List Value} {v : Value}
    (h : (slot, v) ∈ spread slot args) : ∃ rest, args = v :: rest := by
  cases args with
  | nil => cases h
  | cons u us =>
    rcases List.mem_cons.1 h with e | h
    · cases e
      exact ⟨us, rfl⟩
    · have := le_of_mem_spread h
      have := u.words_pos
      omega

theorem Frame.mem_spread_of_layOut {f : Frame} {slot : Nat} {args : List Value} {s : Slot} {u : Value}
    (room : slot + total Value.words args < 65536) (h : (f.layOut slot args).locals[s]? = some u) :
    (s.toNat, u) ∈ spread slot args ∨ f.locals[s]? = some u := by
  induction args generalizing f slot with
  | nil => exact .inr h
  | cons v vs ih =>
    simp only [total_cons] at room
    have slot_eq : (UInt16.ofNat slot).toNat = slot :=
      UInt16.toNat_ofNat_of_lt' (by simp [UInt16.size]; omega)
    rcases ih (by omega) h with later | stored
    · exact .inl (List.mem_cons_of_mem _ later)
    · rcases LocalValues.getElem?_of_store stored with ⟨rfl, rfl⟩ | ⟨-, old⟩
      · rw [slot_eq]
        exact .inl List.mem_cons_self
      · exact .inr old

/-! ## The context that is handed out -/

/-- The other contexts are spared. -/
theorem World.spares_obtained (w : World σ) : w.Spares (· ≠ w.nextContext) w.obtained :=
  ⟨fun id c ne live => ⟨c, ((Contexts.createOrReset_eq w.contexts).2.1 id ne).trans live, rfl⟩,
    (Heap.grows_handle ..).keepsHandles⟩

/-! ## Code that cannot go on -/

/-- A slot that does not hold a value of the storage cannot be loaded. -/
theorem Run.act_load_ne {cls : Class} {host : Host σ} {f : Frame} {cs : List Caller} {w : World σ}
    {k : Storage} {s : Slot} (fetched : fetch f = .ok (.load k s))
    (missing : ¬ ∃ v, f.locals[s]? = some v ∧ v.kind.mover = k) (fuel : Option Nat) (r' : Run σ) :
    (Run.paying ⟨f, cs, w⟩ fuel).act cls host ≠ .running r' := by
  rw [act_eq (r := Run.paying ⟨f, cs, w⟩ fuel) fetched]
  cases hv : f.locals[s]? with
  | none => simp [Instr.step, SlotOp.step, Frame.load, hv]
  | some v =>
    cases moved : v.movedBy k with
    | ok u => exact absurd ⟨v, hv, (Value.movedBy_eq_ok.1 moved).1⟩ missing
    | error e => simp [Instr.step, SlotOp.step, Frame.load, hv, moved]

namespace Weaving

variable (W : Weaving)

/-- A mirror is complete up to a slot, and from there on nothing is set but arguments. -/
structure Filling (f : Frame) (vars : Store) (slot : Nat) (args : List Value) : Prop where
  done : ∀ (s : Slot) (v : Value), s.toNat < slot → s.toNat < W.base →
    (W.method.isStatic = true ∨ s ≠ 0) → f.locals[s]? = some v →
    vars.recall v.kind.mover (slotIndex s) = v
  ahead : ∀ (s : Slot) (v : Value), slot ≤ s.toNat → s.toNat < W.base →
    f.locals[s]? = some v → (s.toNat, v) ∈ spread slot args

variable {W} {cls : Class} {host : Host σ} {w : World σ} {ids : List ContextId} {f : Frame}
  {cs : List Caller} {id : ContextId} {c : Context} {vars : Store} {slot : Nat} {args : List Value}

namespace Filling

/-- A mirror is complete if there are no more arguments. -/
theorem mirrors (h : W.Filling f vars slot []) : W.Mirrors f vars := by
  intro s v below mine hs
  rcases Nat.lt_or_ge s.toNat slot with low | high
  · exact h.done s v low below mine hs
  · have none := h.ahead s v high below hs
    cases none

/-- One more argument is copied.  Slots in front are done, and stay so; slots behind are still ahead. -/
theorem record {s : Slot} {v : Value} (h : W.Filling f vars s.toNat (v :: args))
    (hs : f.locals[s]? = some v) :
    W.Filling f (vars.put (slotIndex s) v) (s.toNat + v.words) args := by
  have behind {t : Slot} {u : Value} (ne : t ≠ s) (high : s.toNat ≤ t.toNat)
      (below : t.toNat < W.base) (ht : f.locals[t]? = some u) :
      (t.toNat, u) ∈ spread (s.toNat + v.words) args := by
    rcases List.mem_cons.1 (h.ahead t u high below ht) with e | later
    · exact absurd (UInt16.toNat_inj.1 (congrArg Prod.fst e)) ne
    · exact later
  refine ⟨fun t u low below mine ht => ?_, fun t u high below ht => ?_⟩
  · by_cases same : t = s
    · subst same
      obtain rfl := Option.some.inj (ht.symm.trans hs)
      exact Store.recall_put_self
    · rw [Store.recall_put_ne fun e => same (slotIndex_inj.1 e).symm]
      rcases Nat.lt_or_ge t.toNat s.toNat with before | after
      · exact h.done t u before below mine ht
      · have := le_of_mem_spread (behind same after below ht)
        omega
  · refine behind ?_ (by omega) below ht
    rintro rfl
    have := v.words_pos
    omega

/-- The slots that the prologue leaves alone. -/
theorem congr {g : Frame} (h : W.Filling f vars slot args)
    (kept : ∀ (s : Slot) v, s.toNat < W.base → g.locals[s]? = some v → f.locals[s]? = some v) :
    W.Filling g vars slot args :=
  ⟨fun s v low below mine hs => h.done s v low below mine (kept s v below hs),
    fun s v high below hs => h.ahead s v high below (kept s v below hs)⟩

end Filling

variable (pending : w.contexts.pending = none) (alive : W.Alive cls w ids cs) (new : id ∉ ids)
include pending alive new

/-- A frame with its mirror, at a place that is ready. -/
theorem settled_own (own : f.method = W.result) (holds : f.Holds W.plan.slots.context w id c)
    (mirrors : W.Mirrors f c.vars) (ready : W.Ready f.pc) : W.Settled cls ⟨f, cs, w⟩ :=
  ⟨pending, holds.intact, ⟨ids, .own ⟨own, c, holds, mirrors⟩ new, alive⟩, fun _ => ready⟩

omit pending alive new in
/-- A slot that is recorded without a value of its storage is a place where the method gets stuck. -/
theorem settles_missing {k : Storage} {s : Slot} (own : f.method = W.result)
    (here : W.Stands f.pc (W.plan.recordSlot k s))
    (hidden : ∀ q, f.pc ≤ q → q < f.pc + (W.plan.recordSlot k s).length → W.Hidden q)
    (holds : f.Holds W.plan.slots.context w id c)
    (missing : ¬ ∃ v, f.locals[s]? = some v ∧ v.kind.mover = k) : W.Settles cls host ⟨f, cs, w⟩ := by
  obtain ⟨r, w', asked, -, -⟩ := W.plan.performs_localVars cls host holds
  have pushed : Performs cls host (W.plan.localVars ++ [pushSlot s]) ⟨f, w⟩
      ⟨f.moved 3 (.int (slotIndex s) :: .object r :: f.stack), w'⟩ :=
    asked.append (.one (Carries.pushInt _))
  have here : W.Stands f.pc ((W.plan.localVars ++ [pushSlot s]) ++
      (.load k s :: [callService (Service.store k)])) := by
    simpa [Plan.recordSlot] using here
  have fetched : Run.fetch (f.moved 3 (.int (slotIndex s) :: .object r :: f.stack)) = .ok (.load k s) :=
    (here.right.reads (f := f.moved 3 (.int (slotIndex s) :: .object r :: f.stack)) own rfl).fetch
  have longer : f.pc + 3 < f.pc + (W.plan.recordSlot k s).length :=
    Nat.add_lt_add_left (by simp [Plan.recordSlot, Plan.localVars]) _
  refine .ofPerforms pushed own here.left (fun q low high => hidden q low ?_)
    (.soon own (hidden _ (Nat.le_add_right ..) longer) fun fuel r' act => ?_)
  · exact Nat.lt_of_lt_of_le high (Nat.le_of_lt longer)
  · exact absurd act (Run.act_load_ne fetched missing fuel r')

/-- The parameters are copied, or one of them is missing.  The mirror is complete up to the slot of the next
one; where that was not passed, the copying gets stuck. -/
theorem settles_recordParams {tags : List Tag} (own : f.method = W.result)
    (here : W.Stands f.pc (W.plan.recordParams slot tags))
    (stop : f.pc + (W.plan.recordParams slot tags).length = W.front.length)
    (holds : f.Holds W.plan.slots.context w id c) (filling : W.Filling f c.vars slot args)
    (room : slot + total Tag.words tags ≤ W.base)
    (storable : ∀ t ∈ tags, t.kind.storage?.isSome = true) (few : args.length ≤ tags.length) :
    W.Settles cls host ⟨f, cs, w⟩ := by
  induction tags generalizing f w c slot args with
  | nil =>
    obtain rfl : args = [] := List.eq_nil_of_length_eq_zero (Nat.le_zero.1 few)
    have ready : W.Ready f.pc := by
      have : f.pc = W.placeOf 0 := by rw [placeOf_zero, ← stop]; rfl
      rw [this]
      exact ready_placeOf (Nat.zero_le _)
    exact .now (settled_own pending alive new own holds filling.mirrors ready)
  | cons t ts ih =>
    obtain ⟨k, hk⟩ := Option.isSome_iff_exists.1 (storable t (by simp))
    have first : W.plan.recordParams slot (t :: ts) =
        W.plan.recordSlot k (UInt16.ofNat slot) ++ W.plan.recordParams (slot + t.words) ts := by
      simp only [Plan.recordParams, hk]
    rw [first] at here stop
    rw [List.length_append] at stop
    simp only [total_cons] at room
    have pos : 0 < t.words := by
      cases t <;> exact Nat.succ_pos _
    have slot_eq : (UInt16.ofNat slot).toNat = slot := by
      have := W.base_lt
      exact UInt16.toNat_ofNat_of_lt' (by simp [UInt16.size]; omega)
    have hidden : ∀ q, f.pc ≤ q → q < f.pc + (W.plan.recordSlot k (UInt16.ofNat slot)).length →
        W.Hidden q := fun q _ high => hidden_front (by omega)
    by_cases loaded : ∃ v, f.locals[UInt16.ofNat slot]? = some v ∧ v.kind.mover = k
    · obtain ⟨v, hv, hm⟩ := loaded
      have mem := filling.ahead _ v (Nat.le_of_eq slot_eq.symm) (by omega) hv
      rw [slot_eq] at mem
      obtain ⟨rest, rfl⟩ := eq_cons_of_mem_spread mem
      have words : v.words = t.words := Value.words_eq_of_mover (hm.trans (Plan.mover_of_storage? hk).symm)
      obtain ⟨w', recorded, reaches⟩ := W.plan.performs_recordSlot cls host holds hv hm
      have more : W.Filling (f.moved (W.plan.recordSlot k (UInt16.ofNat slot)).length f.stack)
          (c.vars.put (slotIndex (UInt16.ofNat slot)) v) (slot + t.words) rest := by
        rw [← slot_eq] at filling
        have copied := filling.record hv
        rw [slot_eq, words] at copied
        exact copied.congr fun _ _ _ hs => hs
      refine .ofPerforms recorded own here.left hidden ?_
      refine ih ?_ ?_ own here.right ?_ (holds.after reaches rfl) more (by omega)
        (fun u hu => storable u (by simp [hu])) (by simpa using few)
      · rw [reaches.contexts]
        exact pending
      · exact alive.spared reaches.spares fun other mine e => new (e ▸ mine)
      · rw [← stop, Frame.pc_moved, Nat.add_assoc]
    · exact settles_missing own here.left hidden holds loaded

/-- Where the front begins to copy the parameters. -/
theorem settles_start {sig : Signature} (hsig : W.method.signature = .ok sig) (own : f.method = W.result)
    (hpc : f.pc = W.plan.obtaining.length + W.plan.dispatch.length)
    (holds : f.Holds W.plan.slots.context w id c)
    (filling : W.Filling f c.vars W.method.receiverSlots args) (few : args.length ≤ sig.params.length) :
    W.Settles cls host ⟨f, cs, w⟩ := by
  obtain ⟨sig', hsig', -, front⟩ := Plan.prologue_eq_ok W.opened
  rw [W.made.method_eq] at hsig' front
  obtain rfl : sig' = sig := Except.ok.inj (hsig'.symm.trans hsig)
  have here := W.stands_front
  rw [front] at here
  have here := here.right
  rw [List.length_append, Nat.zero_add, ← hpc] at here
  have stop : f.pc + 1 + (W.plan.recordParams W.method.receiverSlots sig'.params).length =
      W.front.length := by
    rw [front, hpc, List.length_append, List.length_append, List.length_cons]
    omega
  refine .ofLeads own (hidden_front (q := f.pc) (by omega))
    ((Carries.label _).leads (here.reads own rfl).fetch cs) ?_
  exact settles_recordParams pending alive new (f := f.moved 1 f.stack) own here.tail stop
    (holds.moved 1 f.stack) (filling.congr fun _ _ _ hs => hs) (entry_le_base hsig)
    (Signature.storage?_of_parse hsig) few

/-- Behind the context, the front goes on to copy the parameters or to a site.  A context that continues at
a site is the only thing that was set. -/
theorem settles_dispatch (roomy : W.Roomy) {sig : Signature} (hsig : W.method.signature = .ok sig)
    (own : f.method = W.result) (hpc : f.pc = W.plan.obtaining.length)
    (holds : f.Holds W.plan.slots.context w id c)
    (filling : W.Filling f c.vars W.method.receiverSlots args) (few : args.length ≤ sig.params.length)
    (fresh : c.label = noLabel ∨ args = []) : W.Settles cls host ⟨f, cs, w⟩ := by
  obtain ⟨sig', hsig', -, front⟩ := Plan.prologue_eq_ok W.opened
  have here := W.stands_front
  rw [front] at here
  have label : W.stream[W.plan.obtaining.length + W.plan.dispatch.length]? =
      some (.label W.plan.start) := by
    have := here.right.head
    rwa [List.length_append, Nat.zero_add] at this
  rw [List.append_assoc] at here
  have short : W.plan.obtaining.length + W.plan.dispatch.length < W.front.length := by
    rw [front]
    simp only [List.length_append, List.length_cons]
    omega
  have here := here.right.left
  rw [Nat.zero_add, ← hpc] at here
  cases none : W.plan.resumptions.isEmpty with
  | true =>
    have empty : W.plan.dispatch = [] := by rw [Plan.dispatch, if_pos none]
    exact settles_start pending alive new hsig own (by rw [hpc, empty]; rfl) holds filling few
  | false =>
    have dispatch : W.plan.dispatch = [W.plan.loadContext, callService Service.getLabel] ++
        [.tableSwitch 0 (Int32.ofNat W.plan.resumptions.length - 1) W.plan.start
          W.plan.resumptions] := by
      rw [Plan.dispatch, none]
      rfl
    rw [dispatch] at here short
    have asked := W.plan.performs_getLabel cls host holds
    have hidden : ∀ q, q < f.pc + 3 → W.Hidden q := fun q high => hidden_front (by
      simp only [List.length_append, List.length_cons, List.length_nil] at short
      omega)
    refine .ofPerforms asked own here.left (fun q _ high => hidden q (Nat.lt_succ_of_lt high)) ?_
    have switched {q : Nat} (target : f.target (tableTarget 0
        (Int32.ofNat W.plan.resumptions.length - 1) W.plan.start W.plan.resumptions c.label) = .ok q)
        (h : W.Settles cls host ⟨f.goneTo q, cs, w⟩) :
        W.Settles cls host ⟨f.moved 2 (.int c.label :: f.stack), cs, w⟩ := by
      have leads : Run.Leads cls host ⟨f.moved 2 (.int c.label :: f.stack), cs, w⟩
          ⟨f.goneTo q, cs, w⟩ :=
        Run.Leads.tableSwitch (f := f.moved 2 (.int c.label :: f.stack))
          (here.right.reads (f := f.moved 2 (.int c.label :: f.stack)) own rfl).fetch rfl target cs
      exact .ofLeads own (hidden _ (Nat.lt_succ_self _)) leads h
    have starts (start : tableTarget 0 (Int32.ofNat W.plan.resumptions.length - 1) W.plan.start
        W.plan.resumptions c.label = W.plan.start) :
        W.Settles cls host ⟨f.moved 2 (.int c.label :: f.stack), cs, w⟩ :=
      switched (q := W.plan.obtaining.length + W.plan.dispatch.length)
        (by rw [start]; exact target_eq own label)
        (settles_start pending alive new (f := f.goneTo _) hsig own rfl
          ⟨holds.handle, holds.live, holds.intact⟩ (filling.congr fun _ _ _ hs => hs) few)
    rcases List.mem_append.1 (mem_of_tableTarget 0 (Int32.ofNat W.plan.resumptions.length - 1)
      W.plan.start W.plan.resumptions c.label) with site | start
    · rcases fresh with first | rfl
      · exact starts (by rw [first]; exact Plan.tableTarget_noLabel)
      · obtain ⟨k, hk⟩ := List.mem_iff_getElem?.1 site
        obtain ⟨q, hq, ready⟩ := ready_resumption roomy hk
        refine switched (target_eq own hq) (.now (settled_own pending alive new own
          ⟨holds.handle, holds.live, holds.intact⟩ ?_ ready))
        exact filling.mirrors.congr (fun _ _ _ hs => hs) rfl
    · exact starts (List.mem_singleton.1 start)

omit pending alive new

/-- The arguments behind the receiver are still to be copied.  A static method has no receiver; in any other one
it lies in slot 0, and it was obtained before. -/
theorem filling_entry (laid : ∀ (s : Slot) v, f.locals[s]? = some v → (s.toNat, v) ∈ spread 0 args)
    (receiver : W.method.isStatic = true ∨
      ∃ v, f.locals[(0 : Slot)]? = some v ∧ v.kind.mover = .reference) :
    W.Filling f vars W.method.receiverSlots (args.drop W.method.receiverSlots) := by
  cases static : W.method.isStatic with
  | true =>
    simp only [Method.receiverSlots, static, if_true, List.drop_zero]
    exact ⟨fun s v low => absurd low (Nat.not_lt_zero _), fun s v _ _ hs => laid s v hs⟩
  | false =>
    obtain ⟨v, hv, hm⟩ := receiver.resolve_left (by simp [static])
    obtain ⟨rest, rfl⟩ := eq_cons_of_mem_spread (laid 0 v hv)
    have one : v.words = 1 := by
      rw [Value.words_eq_width hm]
      rfl
    simp only [Method.receiverSlots, static, Bool.false_eq_true, if_false, List.drop_one, List.tail_cons]
    refine ⟨fun s u low _ mine _ => ?_, fun s u high _ hs => ?_⟩
    · exact absurd (UInt16.toNat_inj.1 (Nat.lt_one_iff.1 low))
        (mine.resolve_left (by simp [static]))
    · rcases List.mem_cons.1 (laid s u hs) with e | later
      · have : s.toNat = 0 := congrArg Prod.fst e
        omega
      · rwa [Nat.zero_add, one] at later

include alive

/-- A call of the method settles.  If a copy is queued, no argument is passed and no other frame waits.  The
context that is handed out is not that of a frame that waits. -/
theorem settles_entry (roomy : W.Roomy) (intact : w.heap.HandlesIntact) {sig : Signature}
    (hsig : W.method.signature = .ok sig) (entered : Frame.enter W.result args = .ok f)
    (few : args.length ≤ W.method.receiverSlots + sig.params.length)
    (alone : w.contexts.pending = none ∨ ids = [] ∧ args.length ≤ W.method.receiverSlots) :
    W.Settles cls host ⟨f, cs, w⟩ := by
  obtain ⟨room, hf⟩ := Frame.enter_eq_ok entered
  obtain ⟨own, -, hpc⟩ : f.method = W.result ∧ f.stack = [] ∧ f.pc = 0 := by
    rw [hf]
    exact Frame.layOut_eq { method := W.result } 0 args
  obtain ⟨sig', hsig', -, front⟩ := Plan.prologue_eq_ok W.opened
  have here := W.stands_front
  rw [front, List.append_assoc] at here
  have here := here.left
  rw [← hpc] at here
  have short : W.plan.obtaining.length < W.front.length := by
    rw [front]
    simp only [List.length_append, List.length_cons]
    omega
  have hidden : ∀ q, q < f.pc + W.plan.obtaining.length → W.Hidden q := fun q high =>
    hidden_front (by omega)
  have laid (s : Slot) (v : Value) (hs : f.locals[s]? = some v) : (s.toNat, v) ∈ spread 0 args := by
    rw [hf] at hs
    rcases Frame.mem_spread_of_layOut (by omega) hs with mem | none
    · exact mem
    · simp at none
  by_cases receiver : W.method.isStatic = true ∨
      ∃ v, f.locals[(0 : Slot)]? = some v ∧ v.kind.mover = .reference
  · obtain ⟨emptied, -, c, live, origin⟩ := Contexts.createOrReset_eq w.contexts
    have obtained := W.plan.performs_obtaining cls host (w := w)
      (by rw [W.made.method_eq]; exact receiver)
    have others : ∀ other ∈ ids, other ≠ w.nextContext := by
      rintro other mine rfl
      rcases origin with ⟨fresh, -⟩ | queued
      · have := alive.live _ mine
        rw [World.nextContext, fresh] at this
        cases this
      · rw [(alone.resolve_left (by simp [queued])).1] at mine
        cases mine
    have holds : ((f.setLocal W.plan.slots.context (.object w.nextHandle)).moved 3 f.stack).Holds
        W.plan.slots.context w.obtained w.nextContext c :=
      ⟨⟨_, Frame.getElem?_locals_setLocal_self .., Heap.get?_handle intact ..⟩, live,
        (Heap.grows_handle ..).intact intact⟩
    refine .ofPerforms obtained own here (fun q _ high => hidden q high) ?_
    refine settles_dispatch emptied (alive.spared w.spares_obtained others)
      (fun mine => others _ mine rfl) roomy hsig own (by rw [Frame.pc_moved]; exact congrArg (· + 3) hpc)
      holds ((filling_entry laid receiver).congr fun s v below hs => ?_) (by simp; omega) ?_
    · rcases LocalValues.getElem?_of_store hs with ⟨rfl, -⟩ | ⟨-, old⟩
      · exact absurd below (Nat.lt_irrefl _)
      · exact old
    · rcases origin with ⟨-, rfl⟩ | queued
      · exact .inl rfl
      · exact .inr (by simpa using (alone.resolve_left (by simp [queued])).2)
  · have notStatic : W.plan.method.isStatic = false := by
      rw [W.made.method_eq]
      exact Bool.eq_false_iff.2 fun static => receiver (.inl static)
    have load : W.plan.loadReceiver = .load .reference 0 := by
      simp [Plan.loadReceiver, notStatic]
    have fetched : Run.fetch f = .ok (.load .reference 0) := by
      rw [← load]
      exact (here.reads own rfl).fetch
    exact .soon own (hidden _ (Nat.lt_add_of_pos_right (by simp [Plan.obtaining]))) fun fuel r' act =>
      absurd act (Run.act_load_ne fetched (fun loaded => receiver (.inr loaded)) fuel r')

end Weaving

end Suspension
