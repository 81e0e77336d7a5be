import Suspension.Proofs.Machine.Effects
import Suspension.Proofs.Weave.Entering

/-!
# Steps of settled runs

Every step of a settled run leads to a run that settles: through the code behind a store to the next
instruction, through the front of a method that is called, to a handler, or back to a caller.

## Main definitions
* `Weaving.Lands`: where control may go from code of the method.
* `Weaving.Homing`: a subroutine is left for the place behind its call.

## Main results
* `Weaving.settles_go`: wherever control goes, the run settles.
* `Weaving.settles_act`: a step of a settled run.
* `Weaving.settles_follow`: a whole run.
-/

namespace Suspension

variable {σ : Type}

/-- Nothing is copied behind an instruction that stores nothing. -/
theorem Plan.record_eq_nil (p : Plan) {i : Instr} (still : i.written? = none) : p.record i = [] := by
  unfold Instr.written? at still
  split at still
  · cases still
  · cases still
  · next notStore notIncrement =>
    unfold record
    split
    · exact absurd rfl (notIncrement _ _)
    · exact absurd rfl (notStore _ _)
    · rfl

namespace Weaving

variable (W : Weaving)

/-- Where control may go from code of the method: to places that are ready. -/
def Lands (pc : Nat) : Flow → Prop
  | .next | .enter .. => W.Ready pc
  | .jump l => ∃ q, W.stream[q]? = some (.label l) ∧ W.Ready q
  | .goTo q => W.Ready q
  | .leave _ => False
  | .raise _ => True

/-- A subroutine of the method is left for the place behind one of its calls. -/
def Homing (f : Frame) : Prop :=
  f.method = W.result → ∀ s pc, Run.fetch f = .ok (.slot .ret s) → f.locals[s]? = some (.address pc) →
    ∃ j l, W.instrs[j]? = some (.jump .jsr l) ∧ pc = W.placeOf j + 1

/-- A run from which every step leads to one that settles. -/
def Goes (cls : Class) (host : Host σ) (r : Run σ) : Prop :=
  ∀ fuel r', (r.paying fuel).act cls host = .running r' → W.Settles cls host r'

variable {W} {cls : Class} {host : Host σ} {w : World σ} {ids : List ContextId} {f g : Frame}
  {cs : List Caller} {r r' : Run σ} {i : Instr} {flow : Flow}

/-- Straight code of which the first instruction may be one of the method. -/
theorem goes_ofPerforms {code : List Instr} {w w' : World σ}
    (performs : Performs cls host (i :: code) ⟨f, w⟩ ⟨g, w'⟩) (own : f.method = W.result)
    (here : W.Stands f.pc (i :: code))
    (hidden : ∀ q, f.pc < q → q < f.pc + 1 + code.length → W.Hidden q)
    (h : W.Settles cls host ⟨g, cs, w'⟩) : W.Goes cls host ⟨f, cs, w⟩ := by
  intro fuel r' act
  cases performs with
  | @cons _ _ _ s' _ first rest =>
    obtain ⟨f', w₁⟩ := s'
    have leads := first.leads (here.reads own rfl).fetch cs
    obtain rfl := Progress.running.inj ((leads fuel).symm.trans act)
    have method : f'.method = f.method := first.method
    have pc : f'.pc = f.pc + 1 := first.pc
    refine Settles.paying (.ofPerforms rest (method.trans own) ?_ (fun q low high => ?_) h) fuel
    · rw [pc]
      exact here.tail
    · exact hidden q (by omega) (by omega)

/-! ## Where control goes -/

variable (U : W.Undisturbed cls host) (member : W.result ∈ cls.methods)
  {sig : Signature} (hsig : W.method.signature = .ok sig)
  (pending : w.contexts.pending = none) (intact : w.heap.HandlesIntact)
  (upright : W.Upright cls w ids g) (alive : W.Alive cls w ids cs)
include U member hsig pending intact upright alive

/-- A method that is called.  It is the method once more, or another one of the class; no more receivers are
passed than the method has slots for. -/
theorem settles_enter (mem : i ∈ g.method.code.instrs) (ready : g.method = W.result → W.Ready g.pc)
    {callee : Method} {args : List Value} {result : Option Tag}
    (leads : i.MayLead cls (.enter callee args result)) (entered : Frame.enter callee args = .ok f) :
    W.Settles cls host ⟨f, ⟨g, result⟩ :: cs, w⟩ := by
  obtain ⟨ids', alive'⟩ := alive.cons upright ready result
  obtain ⟨kind, m, s, receiver, params, rfl, found, hs, rfl, hparams, hreceiver⟩ := leads
  obtain ⟨callee_mem, -, descriptor⟩ := Class.callee?_eq_some found
  by_cases own : callee = W.result
  · subst own
    have same : s = sig := by
      have parsed := hsig
      rw [Method.signature, show W.method.descriptor = m.descriptor from descriptor] at parsed
      unfold callSignature at hs
      exact Except.ok.inj ((mapError_eq_ok.1 hs).symm.trans parsed)
    have few : receiver.toList.length ≤ W.method.receiverSlots := by
      cases static : W.method.isStatic with
      | true =>
        have none := U.receiver static _ (upright.member member) kind m mem found
        rw [none] at hreceiver
        cases receiver with
        | none => exact Nat.zero_le _
        | some v => cases hreceiver
      | false =>
        simp only [Method.receiverSlots, static, Bool.false_eq_true, if_false]
        cases receiver <;> simp
    refine settles_entry alive' U.roomy intact hsig entered ?_ (.inl pending)
    rw [List.length_append, hparams, same]
    omega
  · obtain ⟨-, hf⟩ := Frame.enter_eq_ok entered
    have foreign : f.method = callee := by
      rw [hf]
      exact (Frame.layOut_eq { method := callee } 0 _).1
    refine .now ⟨pending, intact, ⟨ids', .other ?_ ?_, alive'⟩, fun e => ?_⟩
    · exact foreign ▸ own
    · exact foreign ▸ callee_mem
    · exact absurd (foreign.symm.trans e) own

/-- Wherever control goes, the run settles.  An uncaught exception and a return end in a caller, a call in a
callee, the rest in the same frame. -/
theorem settles_go (mem : i ∈ g.method.code.instrs) (leads : i.MayLead cls flow)
    (lands : g.method = W.result → W.Lands g.pc flow)
    (h : Run.go host ⟨g, cs, w⟩ flow = .running r') : W.Settles cls host r' := by
  cases flow with
  | next =>
    cases h
    exact .now ⟨pending, intact, ⟨ids, upright, alive⟩, lands⟩
  | jump l =>
    unfold Run.go at h
    simp only at h
    split at h
    · next pc target =>
      cases h
      refine .now ⟨pending, intact, ⟨ids, upright.congr rfl rfl, alive⟩, fun own => ?_⟩
      obtain ⟨q, hq, ready⟩ := lands own
      obtain rfl : q = pc := Except.ok.inj ((target_eq own hq).symm.trans target)
      exact ready
    · cases h
  | goTo pc =>
    cases h
    exact .now ⟨pending, intact, ⟨ids, upright.congr rfl rfl, alive⟩, lands⟩
  | leave v => exact .now (settled_leave pending intact alive h)
  | raise exc => exact .now (settled_unwind pending intact upright alive h)
  | enter callee args result =>
    unfold Run.go at h
    simp only at h
    split at h
    · next entered =>
      cases h
      exact settles_enter U member hsig pending intact upright alive mem lands leads entered
    · cases h

omit pending intact upright alive

/-! ## Steps -/

variable (settled : W.Settled cls r) (act : r.act cls host = .running r')
include settled act

/-- A step of another method.  It calls no services, so whatever it does, it spares the contexts. -/
theorem settles_foreign (foreign : r.frame.method ≠ W.result) : W.Settles cls host r' := by
  obtain ⟨i, flow, t, fetched, step, go⟩ := Run.act_eq_running act
  obtain ⟨ids, upright, alive⟩ := settled.frames
  have mem := Run.mem_of_fetch fetched
  have member' := upright.member member
  have none := U.others _ member' foreign i mem
  have does : Does (Situation.keeping LocalValues.anyhow Contexts.sparing) (i.MayLead cls)
      (i.step cls host) := by
    refine i.does_step cls U.leaves (fun _ _ _ _ => trivial) fun kind m e service => ?_
    subst e
    rw [Instr.callsService, service] at none
    cases none
  obtain ⟨⟨⟨method, -, -⟩, world⟩, leads⟩ := does.ok step
  have spares := World.spares_of_keeping world
  have method : t.frame.method = r.frame.method := method
  have upright : W.Upright cls t.world ids t.frame := .other (method ▸ foreign) (method ▸ member')
  refine settles_go U member hsig (world.1.1.trans settled.pending) (spares.handles.intact settled.intact)
    upright (alive.spared spares fun _ _ => trivial)
    (method ▸ mem) leads (fun own => absurd own (method ▸ foreign)) go

/-- A step of the method that leaves its slots and its context alone. -/
theorem settles_quiet (own : r.frame.method = W.result) (fetched : Run.fetch r.frame = .ok i)
    (does : Does (Situation.keeping (LocalValues.keepingBelow W.plan.slots.context) Contexts.sparing)
      (i.MayLead cls) (i.step cls host))
    (lands : ∀ flow t, i.step cls host ⟨r.frame.moved 1 r.frame.stack, r.world⟩ = .ok flow t →
      W.Lands (r.frame.pc + 1) flow) : W.Settles cls host r' := by
  obtain ⟨i', flow, t, fetched', step, go⟩ := Run.act_eq_running act
  obtain rfl : i' = i := Except.ok.inj (fetched'.symm.trans fetched)
  obtain ⟨ids, upright, alive⟩ := settled.frames
  obtain ⟨rel, leads⟩ := does.ok step
  have spares := World.spares_of_keeping rel.2
  have method : t.frame.method = r.frame.method := rel.1.1
  have pc : t.frame.pc = r.frame.pc + 1 := rel.1.2.1
  cases upright with
  | other foreign => exact absurd own foreign
  | own mirrored new =>
    have moved : W.Mirrored (r.frame.moved 1 r.frame.stack) r.world _ := mirrored.congr rfl rfl
    refine settles_go U member hsig (rel.2.1.1.trans settled.pending)
      (spares.handles.intact settled.intact) (.own (moved.calmed rel) new)
      (alive.spared spares fun _ _ => trivial) (method ▸ Run.mem_of_fetch fetched) leads (fun _ => ?_) go
    rw [pc]
    exact lands flow t step

/-- A calm step of the method. -/
theorem settles_calm (own : r.frame.method = W.result) (fetched : Run.fetch r.frame = .ok i)
    (calm : i.calm W.plan.slots.context = true) (next : W.Ready (r.frame.pc + 1)) :
    W.Settles cls host r' := by
  have does : Does _ (i.MayLead cls) (i.step cls host) := Instr.does_calm U.leaves calm
  refine settles_quiet U member hsig settled act own fetched does fun flow t step => ?_
  rcases Instr.calm_leads calm (does.ok step).2 with rfl | ⟨exc, rfl⟩ | ⟨callee, args, result, rfl⟩
  · exact next
  · trivial
  · exact next

omit settled act member hsig

variable {id : ContextId} {c : Context} (pending : w.contexts.pending = none)
  (alive : W.Alive cls w ids cs) (new : id ∉ ids) (mirrored : W.Mirrored f w id)
include pending alive new mirrored

/-- A cast of a value that was fetched back goes on, or it is caught where the mirror is intact. -/
theorem goes_cast {target : String} (here : W.Stands f.pc [.typed .checkCast target])
    (next : W.Settles cls host ⟨f.moved 1 f.stack, cs, w⟩) : W.Goes cls host ⟨f, cs, w⟩ := by
  intro fuel r' act
  have fetched : Run.fetch f = .ok (.typed .checkCast target) := (here.reads mirrored.method rfl).fetch
  obtain ⟨i, flow, s, fetched', step, go⟩ := Run.act_eq_running act
  obtain rfl : i = .typed .checkCast target := Except.ok.inj (fetched'.symm.trans fetched)
  have calm : (Instr.typed .checkCast target).calm W.plan.slots.context = true := rfl
  have does : Does _ (Instr.MayLead cls _) (Instr.step cls host (.typed .checkCast target)) :=
    Instr.does_calm U.leaves calm
  obtain ⟨rel, leads⟩ := does.ok step
  rcases Instr.calm_leads calm leads with rfl | ⟨exc, rfl⟩ | ⟨callee, args, result, rfl⟩
  · obtain rfl := Instr.step_checkCast_eq_ok step
    cases go
    exact next.paying fuel
  · have spares := World.spares_of_keeping rel.2
    have before : W.Mirrored (f.moved 1 f.stack) (w.paying fuel) id := (mirrored.paying fuel).congr rfl rfl
    have intact : s.world.heap.HandlesIntact := by
      obtain ⟨c, holds, -⟩ := mirrored.context
      exact spares.handles.intact holds.intact
    refine .now (settled_unwind (rel.2.1.1.trans pending) intact (.own (before.calmed rel) new) ?_ go)
    exact (alive.spared (w.spares_paying fuel) fun _ _ => trivial).spared spares fun _ _ => trivial
  · obtain ⟨kind, m, -, -, -, e, -⟩ := leads
    cases e

/-- A slot that is fetched back.  What the mirror recalls covers as many words as what was recorded. -/
theorem goes_restore {site : Nat} {slot : Slot} {t : Tag} {code : List Instr}
    (hcode : W.plan.restoreLocal site slot t = .ok code) (here : W.Stands f.pc code)
    (hidden : ∀ q, f.pc < q → q < f.pc + code.length → W.Hidden q)
    (room : slot.toNat + t.words ≤ W.base) (next : W.Ready (f.pc + code.length)) :
    W.Goes cls host ⟨f, cs, w⟩ := by
  have own := mirrored.method
  obtain ⟨k, hk, h⟩ := bind_eq_ok.1 hcode
  cases h
  have hk : t.kind.storage? = some k := by
    unfold Plan.storageFor at hk
    split at hk
    · next e =>
      cases hk
      exact e
    · cases hk
  obtain ⟨c, w₁, holds, mirrors, got, reaches⟩ := mirrored.performs_get cls host k slot
  have moves := Store.mover_recall c.vars k (slotIndex slot)
  have words : k.width.words = t.words := by
    rw [← Value.words_eq_width moves]
    exact Value.words_eq_of_mover (moves.trans (Plan.mover_of_storage? hk).symm)
  rw [List.length_append, List.length_append] at hidden next
  have four : (W.plan.localVars ++ [pushSlot slot, callService (Service.get k)]).length = 4 := rfl
  rw [four] at hidden next
  have pending₁ : w₁.contexts.pending = none := reaches.contexts ▸ pending
  have alive₁ : W.Alive cls w₁ ids cs :=
    alive.spared reaches.spares fun other mine e => new (e ▸ mine)
  have holds₁ : f.Holds W.plan.slots.context w₁ id c := holds.after reaches rfl
  have mirrored₁ : W.Mirrored f w₁ id := ⟨own, c, holds₁, mirrors⟩
  have stored : W.Settles cls host ⟨f.moved (4 + (castTo t).length)
      (c.vars.recall k (slotIndex slot) :: f.stack), cs, w₁⟩ := by
    have at_end : f.pc + (4 + (castTo t).length) = f.pc + 4 + (castTo t).length := by omega
    have last := here.right
    rw [List.length_append, four] at last
    refine .ofPerforms (.one (Carries.store rfl moves)) own last (fun q low high => hidden q ?_ ?_) ?_
    · rw [Frame.pc_moved] at low
      omega
    · rw [Frame.pc_moved] at high
      exact Nat.add_assoc .. ▸ high
    · refine .now ⟨pending₁, holds₁.intact, ⟨ids, .own ?_ new, alive₁⟩, fun _ => ?_⟩
      · exact (mirrored₁.fetched holds₁ (by rw [words]; exact room)).congr rfl rfl
      · exact next
  have got : Performs cls host (W.plan.loadContext :: [callService Service.getLocalVars, pushSlot slot,
      callService (Service.get k)]) ⟨f, w⟩ ⟨f.moved 4 (c.vars.recall k (slotIndex slot) :: f.stack), w₁⟩ :=
    got
  refine goes_ofPerforms got own here.left.left (fun q low high => hidden q low ?_) ?_
  · simp only [List.length_cons, List.length_nil] at high ⊢
    omega
  cases cast : t.castTarget with
  | none =>
    rw [castTo, cast] at stored
    exact stored
  | some target =>
    have once : castTo t = [.typed .checkCast target] := by rw [castTo, cast]; rfl
    rw [once] at here hidden stored
    have fetched₁ : W.Mirrored (f.moved 4 (c.vars.recall k (slotIndex slot) :: f.stack)) w₁ id :=
      mirrored₁.congr rfl rfl
    refine .soon own (hidden (f.pc + 4) (by omega) ?_)
      (goes_cast U pending₁ alive₁ new fetched₁ here.left.right stored)
    simp only [List.length_cons, List.length_nil]
    omega

omit U member

/-- A return of the method.  The context is dropped first; only the frame itself has used it. -/
theorem goes_return {j : Nat} {k : Option Storage} (hj : W.instrs[j]? = some (.plain (.leave k)))
    (hpc : f.pc = W.placeOf j) : W.Goes cls host ⟨f, cs, w⟩ := by
  have own := mirrored.method
  obtain ⟨c, holds, -⟩ := mirrored.context
  have inside : j < W.instrs.length := (List.getElem?_eq_some_iff.1 hj).1
  have hp := piece_return hj
  have here := stands_piece inside
  rw [hp, ← hpc] at here
  have stop := placeOf_succ inside
  rw [hp, ← hpc, List.length_append] at stop
  have four : W.plan.deregister.length = 4 := rfl
  rw [four] at stop
  have hidden : ∀ q, f.pc < q → q < f.pc + 5 → W.Hidden q := fun q low high =>
    hidden_of_between (i := j) (hpc ▸ low) (by rw [stop]; exact high)
  obtain ⟨w', dropped, spares, emptied⟩ := Plan.performs_deregister cls host holds
  have dropped : Performs cls host (W.plan.loadContext :: [callService Service.registerContext,
      W.plan.loadContext, callService Service.deactivate]) ⟨f, w⟩ ⟨f.moved 4 f.stack, w'⟩ := dropped
  refine goes_ofPerforms dropped own here.left (fun q low high => hidden q low ?_) ?_
  · simp only [List.length_cons, List.length_nil] at high
    omega
  have fetched : Run.fetch (f.moved 4 f.stack) = .ok (.plain (.leave k)) :=
    (here.right.reads (f := f.moved 4 f.stack) own rfl).fetch
  refine .soon own (hidden (f.pc + 4) (by omega) (by omega)) fun fuel r' act => ?_
  obtain ⟨i, flow, s, fetched', step, go⟩ := Run.act_eq_running act
  obtain rfl : i = .plain (.leave k) := Except.ok.inj (fetched'.symm.trans fetched)
  obtain ⟨v, rfl, world⟩ := Instr.step_leave_eq_ok step
  have alive' : W.Alive cls s.world ids cs := by
    rw [world]
    refine (alive.spared spares fun other mine e => new (e ▸ mine)).spared (w'.spares_paying fuel)
      fun _ _ => trivial
  refine .now (settled_leave ?_ ?_ alive' go)
  · rw [world]
    exact emptied.trans pending
  · rw [world]
    exact spares.handles.intact holds.intact

/-- An instruction of the method with the code that copies what it stored. -/
theorem goes_recorded (roomy : W.Roomy) {j : Nat} (hj : W.instrs[j]? = some i)
    (notLabel : i.defined? = none) (notReturn : i.isReturn = false)
    (noSite : W.config.site? W.className i = none) (hpc : f.pc = W.placeOf j) {w' : World σ} {c' : Context}
    (performed : Performs cls host (i :: W.plan.record i) ⟨f, w⟩ ⟨g, w'⟩) (mirrored' : W.Mirrored g w' id)
    (reaches : w.Reaches id c' w') : W.Goes cls host ⟨f, cs, w⟩ := by
  obtain ⟨here, hidden, ready⟩ := ready_behind roomy hj notLabel notReturn noSite
  rw [← hpc] at here hidden ready
  obtain ⟨c'', holds, -⟩ := mirrored'.context
  refine goes_ofPerforms performed mirrored.method here hidden (.now ⟨?_, holds.intact,
    ⟨ids, .own mirrored' new, alive.spared reaches.spares fun other mine e => new (e ▸ mine)⟩, fun _ => ?_⟩)
  · exact reaches.contexts ▸ pending
  · have behind : g.pc = f.pc + (i :: W.plan.record i).length := performed.pc
    have : (i :: W.plan.record i).length = 1 + (W.plan.record i).length := Nat.add_comm ..
    rw [this, ← Nat.add_assoc] at behind
    exact behind ▸ ready

/-- A store of the method. -/
theorem goes_store (roomy : W.Roomy) {j : Nat} {k : Storage} {s : Slot}
    (hj : W.instrs[j]? = some (.store k s)) (hpc : f.pc = W.placeOf j) : W.Goes cls host ⟨f, cs, w⟩ := by
  intro fuel r' act
  obtain ⟨here, -, -⟩ := ready_behind roomy hj rfl rfl rfl
  have fetched : Run.fetch f = .ok (.store k s) := (here.reads mirrored.method hpc).fetch
  obtain ⟨i, flow, t, fetched', step, -⟩ := Run.act_eq_running act
  obtain rfl : i = .store k s := Except.ok.inj (fetched'.symm.trans fetched)
  obtain ⟨v, rest, hstack, hk⟩ := Instr.step_store_eq_ok step
  obtain ⟨g, w', c', performed, mirrored', reaches⟩ := mirrored.performs_store cls host hstack hk
    (slot_le_base (List.mem_of_getElem? hj) rfl)
  exact goes_recorded pending alive new mirrored roomy hj rfl rfl rfl hpc performed mirrored' reaches
    fuel r' act

/-- An increment of the method. -/
theorem goes_increment (roomy : W.Roomy) {j : Nat} {s : Slot} {amount : Int16}
    (hj : W.instrs[j]? = some (.iinc s amount)) (hpc : f.pc = W.placeOf j) :
    W.Goes cls host ⟨f, cs, w⟩ := by
  intro fuel r' act
  obtain ⟨here, -, -⟩ := ready_behind roomy hj rfl rfl rfl
  have fetched : Run.fetch f = .ok (.iinc s amount) := (here.reads mirrored.method hpc).fetch
  obtain ⟨i, flow, t, fetched', step, -⟩ := Run.act_eq_running act
  obtain rfl : i = .iinc s amount := Except.ok.inj (fetched'.symm.trans fetched)
  obtain ⟨n, hn⟩ := Instr.step_iinc_eq_ok step
  have room : s.toNat + Width.one.words ≤ W.base := slot_le_base (List.mem_of_getElem? hj) rfl
  obtain ⟨g, w', c', performed, mirrored', reaches⟩ :=
    mirrored.performs_increment cls host amount hn room
  exact goes_recorded pending alive new mirrored roomy hj rfl rfl rfl hpc performed mirrored' reaches
    fuel r' act

omit pending alive new mirrored

/-- Where control goes from an instruction of the method.  Code stands ready at every label.  The address that a
subroutine returns to was left by a call, and no code was put behind that one. -/
theorem lands_original (roomy : W.Roomy) {j : Nat} (hj : W.instrs[j]? = some i)
    (notLabel : i.defined? = none) (notReturn : i.isReturn = false)
    (noSite : W.config.site? W.className i = none) (still : i.written? = none) (hpc : f.pc = W.placeOf j)
    (own : f.method = W.result) (fetched : Run.fetch f = .ok i) (homing : W.Homing f) {s t : Situation σ}
    (same : s.frame.locals = f.locals) (step : i.step cls host s = .ok flow t)
    (leads : i.MayLead cls flow) : W.Lands (f.pc + 1) flow := by
  have behind {j : Nat} {i : Instr} (hj : W.instrs[j]? = some i) (notLabel : i.defined? = none)
      (notReturn : i.isReturn = false) (noSite : W.config.site? W.className i = none)
      (still : i.written? = none) : W.Ready (W.placeOf j + 1) := by
    have ready := (ready_behind roomy hj notLabel notReturn noSite).2.2
    rwa [W.plan.record_eq_nil still] at ready
  have next : W.Ready (f.pc + 1) := hpc ▸ behind hj notLabel notReturn noSite still
  cases flow with
  | next => exact next
  | enter => exact next
  | raise exc => trivial
  | leave v => exact absurd (show i.isReturn = true from leads) (by simp [notReturn])
  | jump l =>
    obtain ⟨g, hg⟩ := W.exists_graph
    obtain ⟨q, hq⟩ := List.mem_iff_getElem?.1
      (mem_definedLabels.1 (Graph.targets_of_build hg (List.mem_of_getElem? hj) leads))
    obtain ⟨check, hp⟩ := exists_piece_label hq
    exact ⟨W.placeOf q, getElem?_placeOf_add (k := 0) (by simp [hp]),
      ready_placeOf (Nat.le_of_lt (List.getElem?_eq_some_iff.1 hq).1)⟩
  | goTo pc =>
    obtain ⟨slot, rfl⟩ := leads
    obtain ⟨pc', address, e⟩ := Instr.step_ret_eq_ok step
    cases e
    obtain ⟨q, l, hq, rfl⟩ := homing own slot pc fetched (same ▸ address)
    exact behind hq rfl rfl rfl rfl

include U member hsig settled act

/-- A step from an instruction of the method.  Code was put behind labels, in front of returns, and behind
stores and increments. -/
theorem settles_original {j : Nat} (own : r.frame.method = W.result) (homing : W.Homing r.frame)
    (hpc : r.frame.pc = W.placeOf j) (hj : W.instrs[j]? = some i)
    (noSite : W.config.site? W.className i = none) : W.Settles cls host r' := by
  obtain ⟨ids, upright, alive⟩ := settled.frames
  have goes (h : W.Goes cls host r) : W.Settles cls host r' := h r.world.fuel r' act
  cases upright with
  | other foreign => exact absurd own foreign
  | own mirrored new =>
  cases label : i.defined? with
  | some l =>
    obtain rfl := defined?_eq_some.1 label
    obtain ⟨check, hp⟩ := exists_piece_label hj
    have fetched : Run.fetch r.frame = .ok (.label l) :=
      fetch_eq own (hpc ▸ getElem?_placeOf_add (k := 0) (by simp [hp]))
    exact settles_calm U member hsig settled act own fetched rfl (hpc ▸ ready_check hj)
  | none =>
    cases back : i.isReturn with
    | true =>
      obtain ⟨k, rfl⟩ := Instr.isReturn_iff.1 back
      exact goes (goes_return settled.pending alive new mirrored hj hpc)
    | false =>
      cases stores : i.written? with
      | some s =>
        unfold Instr.written? at stores
        split at stores
        · exact goes (goes_store settled.pending alive new mirrored U.roomy hj hpc)
        · exact goes (goes_increment settled.pending alive new mirrored U.roomy hj hpc)
        · cases stores
      | none =>
        obtain ⟨here, -, -⟩ := ready_behind U.roomy hj label back noSite
        have fetched : Run.fetch r.frame = .ok i := (here.reads own hpc).fetch
        have none := U.own i (List.mem_of_getElem? hj)
        have does : Does (Situation.keeping (LocalValues.keepingBelow W.plan.slots.context)
            Contexts.sparing) (i.MayLead cls) (i.step cls host) := by
          refine i.does_step cls U.leaves (fun s hs => ?_) fun kind m e service => ?_
          · rw [stores] at hs
            cases hs
          · subst e
            rw [Instr.callsService, service] at none
            cases none
        refine settles_quiet U member hsig settled act own fetched does fun flow t step => ?_
        exact lands_original U.roomy hj label back noSite stores hpc own fetched homing rfl step
          (does.ok step).2

/-- A test of the method, which goes on behind it or to its target. -/
theorem settles_test {t : Test} {l : Label} {q : Nat} (own : r.frame.method = W.result)
    (fetched : Run.fetch r.frame = .ok (.jump (.ifZero t) l)) (target : W.stream[q]? = some (.label l))
    (taken : W.Ready q) (next : W.Ready (r.frame.pc + 1)) : W.Settles cls host r' := by
  have does : Does (Situation.keeping (LocalValues.keepingBelow W.plan.slots.context) Contexts.sparing)
      (Instr.MayLead cls (.jump (.ifZero t) l)) (Instr.step cls host (.jump (.ifZero t) l)) :=
    Instr.does_step cls U.leaves _ (fun _ e => by cases e) fun _ _ e => by cases e
  refine settles_quiet U member hsig settled act own fetched does fun flow s step => ?_
  have leads := (does.ok step).2
  cases flow with
  | next => exact next
  | jump l' =>
    obtain rfl : l' = l := List.mem_singleton.1 leads
    exact ⟨q, target, taken⟩
  | goTo pc =>
    obtain ⟨s, e⟩ := leads
    cases e
  | leave v => cases leads
  | raise exc => trivial
  | enter =>
    obtain ⟨kind, m, -, -, -, e, -⟩ := leads
    cases e

/-- A step of a settled run. -/
theorem settles_act (homing : W.Homing r.frame) : W.Settles cls host r' := by
  by_cases own : r.frame.method = W.result
  · obtain ⟨ids, upright, alive⟩ := settled.frames
    have ready := settled.ready own
    have goes (h : W.Goes cls host r) : W.Settles cls host r' := h r.world.fuel r' act
    cases upright with
    | other foreign => exact absurd own foreign
    | own mirrored new =>
    generalize hpc : r.frame.pc = pc at ready
    cases ready with
    | place hi noSite => exact settles_original U member hsig settled act own homing hpc hi noSite
    | calm here calm next =>
      exact settles_calm U member hsig settled act own (fetch_eq own (hpc ▸ here)) calm (hpc ▸ next)
    | throw here =>
      have calm : (Instr.plain .athrow).calm W.plan.slots.context = true := rfl
      refine settles_quiet U member hsig settled act own (fetch_eq own (hpc ▸ here))
        (Instr.does_calm U.leaves calm) fun flow t step => ?_
      obtain ⟨exc, rfl⟩ := Instr.step_athrow_eq_ok step
      trivial
    | check here target taken next =>
      exact settles_test U member hsig settled act own (fetch_eq own (hpc ▸ here)) target taken (hpc ▸ next)
    | restore hcode here hidden room next =>
      subst hpc
      exact goes (goes_restore U settled.pending alive new mirrored hcode here
        (fun q low high => hidden q (Nat.le_of_lt low) high) room next)
    | ended done =>
      obtain ⟨i, flow, t, fetched, -, -⟩ := Run.act_eq_running act
      have none : r.frame.method.code.instrs[r.frame.pc]? = none := by
        rw [own, hpc]
        exact done
      simp [Run.fetch, none] at fetched
  · exact settles_foreign U member hsig settled act own

omit settled act

/-- A step of a run that settles. -/
theorem settles_advance (settles : W.Settles cls host r) (homing : W.Homing r.frame)
    (h : r.advance cls host = .running r') : W.Settles cls host r' := by
  rw [Run.advance_eq] at h
  cases settles with
  | now settled =>
    split at h
    · exact settles_act U member hsig settled h homing
    · cases h
    · next n _ => exact settles_act U member hsig (settled.paying (some n)) h homing
  | soon own hidden next =>
    split at h
    · exact next r.world.fuel r' h
    · cases h
    · next n _ => exact next (some n) r' h

/-- A run that settles goes on to settle, as long as its subroutines come home. -/
theorem settles_follow {n : Nat} (settles : W.Settles cls host r)
    (homing : ∀ m < n, ∀ r'', r.follow cls host m = .running r'' → W.Homing r''.frame)
    (h : r.follow cls host n = .running r') : W.Settles cls host r' := by
  induction n generalizing r with
  | zero =>
    cases h
    exact settles
  | succ n ih =>
    rw [Run.follow] at h
    split at h
    · next r₁ first =>
      refine ih (settles_advance U member hsig settles (homing 0 (by omega) r rfl) first) ?_ h
      intro m lt r'' later
      refine homing (m + 1) (by omega) r'' ?_
      rw [Run.follow, first]
      exact later
    · next other => exact absurd h (other r')

omit U member hsig

/-- At an instruction of the method, a run that settles has its mirror. -/
theorem Settles.exists_mirrored (settles : W.Settles cls host r) (own : r.frame.method = W.result) {j : Nat}
    (hpc : r.frame.pc = W.placeOf j) : ∃ id, W.Mirrored r.frame r.world id := by
  cases settles with
  | now settled =>
    obtain ⟨ids, upright, -⟩ := settled.frames
    cases upright with
    | other foreign => exact absurd own foreign
    | own mirrored => exact ⟨_, mirrored⟩
  | soon _ hidden => exact absurd hpc (hidden j)

end Weaving

end Suspension
