import Suspension.Proofs.Weave.Mirror

/-!
# Frames that keep their mirrors

During a run several frames of a suspendable method may wait for each other, each with a context of its
own.  A run is settled if all of them are at places from which inserted code goes on calmly, and their
contexts repeat their slots; and it settles if it comes to such a state whatever it does.

## Main definitions
* `Weaving.Undisturbed`: what the class that is run and the host have to keep to.
* `Weaving.Upright`, `Weaving.Alive`, `Weaving.Settled`: the invariant.
* `Weaving.Settles`: a run that is settled, or will be before it comes to an instruction of the method.

## Main results
* `Weaving.settled_unwind`: an exception that is caught leaves a settled run.
* `Weaving.settled_leave`: a method that is left leaves its caller settled.
-/

namespace Suspension

variable {σ : Type}

namespace Weaving

variable (W : Weaving)

/-- What the class that is run and the host have to keep to: handles of contexts are left alone, what is
recorded ends below the reserved slots, no code but the inserted one calls services, and a static method is
called without receiver. -/
structure Undisturbed (cls : Class) (host : Host σ) : Prop where
  leaves : host.LeavesHandles
  roomy : W.Roomy
  own : ∀ i ∈ W.instrs, i.callsService = false
  others : ∀ m ∈ cls.methods, m ≠ W.result → ∀ i ∈ m.code.instrs, i.callsService = false
  receiver : W.method.isStatic = true → ∀ m ∈ cls.methods, ∀ kind ref,
    .invoke kind ref ∈ m.code.instrs → cls.callee? ref = some W.result → kind.hasReceiver = false

variable (cls : Class)

/-- A frame of another method, or one with a mirror in a context that none of the given ids stands for. -/
inductive Upright (w : World σ) (ids : List ContextId) (f : Frame) : Prop
  | other (foreign : f.method ≠ W.result) (member : f.method ∈ cls.methods)
  | own {id : ContextId} (mirrored : W.Mirrored f w id) (new : id ∉ ids)

/-- Frames that wait, with the contexts of those among them that have one. -/
inductive Alive (w : World σ) : List ContextId → List Caller → Prop
  | nil : Alive w [] []
  | other {ids : List ContextId} {c : Caller} {cs : List Caller} (foreign : c.frame.method ≠ W.result)
      (member : c.frame.method ∈ cls.methods) (rest : Alive w ids cs) : Alive w ids (c :: cs)
  | own {ids : List ContextId} {c : Caller} {cs : List Caller} {id : ContextId}
      (mirrored : W.Mirrored c.frame w id) (ready : W.Ready c.frame.pc) (new : id ∉ ids)
      (rest : Alive w ids cs) : Alive w (id :: ids) (c :: cs)

/-- Every frame of the method is at a place that is ready, and has its mirror. -/
structure Settled (r : Run σ) : Prop where
  pending : r.world.contexts.pending = none
  intact : r.world.heap.HandlesIntact
  frames : ∃ ids, W.Upright cls r.world ids r.frame ∧ W.Alive cls r.world ids r.callers
  ready : r.frame.method = W.result → W.Ready r.frame.pc

/-- A run is settled, or it is in inserted code and every step leads to a run that settles. -/
inductive Settles (host : Host σ) : Run σ → Prop
  | now {r : Run σ} (settled : W.Settled cls r) : Settles host r
  | soon {r : Run σ} (own : r.frame.method = W.result) (hidden : W.Hidden r.frame.pc)
      (next : ∀ fuel r', (r.paying fuel).act cls host = .running r' → Settles host r') : Settles host r

variable {W cls} {host : Host σ} {w w' : World σ} {ids : List ContextId} {f g : Frame}
  {cs : List Caller} {r r' : Run σ}

/-! ## What does not disturb frames -/

namespace Upright

theorem congr (h : W.Upright cls w ids f) (method : g.method = f.method) (locals : g.locals = f.locals) :
    W.Upright cls w ids g := by
  cases h with
  | other foreign member => exact .other (method ▸ foreign) (method ▸ member)
  | own mirrored new => exact .own (mirrored.congr method locals) new

theorem member (h : W.Upright cls w ids f) (own : W.result ∈ cls.methods) : f.method ∈ cls.methods := by
  cases h with
  | other _ member => exact member
  | own mirrored _ => exact mirrored.method ▸ own

end Upright

namespace Alive

/-- Frames that wait are not disturbed by what spares their contexts. -/
theorem spared {others : ContextId → Prop} (h : W.Alive cls w ids cs) (spares : w.Spares others w')
    (mine : ∀ id ∈ ids, others id) : W.Alive cls w' ids cs := by
  induction h with
  | nil => exact .nil
  | other foreign member _ ih => exact .other foreign member (ih mine)
  | own mirrored ready new _ ih =>
    exact .own (mirrored.spared spares (mine _ (by simp))) ready new
      (ih fun id hid => mine id (by simp [hid]))

theorem cons (h : W.Alive cls w ids cs) (upright : W.Upright cls w ids f)
    (ready : f.method = W.result → W.Ready f.pc) (result : Option Tag) :
    ∃ ids, W.Alive cls w ids (⟨f, result⟩ :: cs) := by
  cases upright with
  | other foreign member => exact ⟨_, .other foreign member h⟩
  | own mirrored new => exact ⟨_, .own mirrored (ready mirrored.method) new h⟩

theorem head {c : Caller} (h : W.Alive cls w ids (c :: cs)) :
    ∃ ids, W.Upright cls w ids c.frame ∧ W.Alive cls w ids cs ∧
      (c.frame.method = W.result → W.Ready c.frame.pc) := by
  cases h with
  | other foreign member rest => exact ⟨_, .other foreign member, rest, fun own => absurd own foreign⟩
  | own mirrored ready new rest => exact ⟨_, .own mirrored new, rest, fun _ => ready⟩

/-- The contexts of frames that wait are live. -/
theorem live (h : W.Alive cls w ids cs) : ∀ id ∈ ids, (w.contexts.get? id).isSome = true := by
  induction h with
  | nil => simp
  | other _ _ _ ih => exact ih
  | own mirrored _ _ _ ih =>
    obtain ⟨c, holds, -⟩ := mirrored.context
    intro id hid
    rcases List.mem_cons.1 hid with rfl | hid
    · rw [holds.live]
      rfl
    · exact ih id hid

end Alive

theorem Settled.paying (h : W.Settled cls r) (fuel : Option Nat) : W.Settled cls (r.paying fuel) := by
  obtain ⟨ids, upright, alive⟩ := h.frames
  refine ⟨h.pending, h.intact, ⟨ids, ?_, alive.spared (r.world.spares_paying fuel) fun _ _ => trivial⟩,
    h.ready⟩
  cases upright with
  | other foreign member => exact .other foreign member
  | own mirrored new => exact .own (mirrored.paying fuel) new

namespace Settles

theorem paying (h : W.Settles cls host r) (fuel : Option Nat) : W.Settles cls host (r.paying fuel) := by
  cases h with
  | now settled => exact .now (settled.paying fuel)
  | soon own hidden next => exact .soon own hidden fun fuel' => next fuel'

/-- A frame of the method in inserted code. -/
abbrev Inside (W : Weaving) (f : Frame) : Prop := f.method = W.result ∧ W.Hidden f.pc

theorem ofLeads (own : r.frame.method = W.result) (hidden : W.Hidden r.frame.pc)
    (leads : Run.Leads cls host r r') (h : W.Settles cls host r') : W.Settles cls host r :=
  .soon own hidden fun fuel r'' act => by
    obtain rfl := Progress.running.inj ((leads fuel).symm.trans act)
    exact h.paying fuel

/-- A run that takes steps through inserted code settles if it does afterwards. -/
theorem ofTakes {n : Nat} (taken : Run.Takes cls host (Inside W) n r r')
    (h : W.Settles cls host r') : W.Settles cls host r := by
  induction taken with
  | refl => exact h
  | step inside leads _ ih => exact ofLeads inside.1 inside.2 leads (ih h)

/-- Straight code in a hidden place. -/
theorem ofPerforms {code : List Instr} {w w' : World σ} (performs : Performs cls host code ⟨f, w⟩ ⟨g, w'⟩)
    (own : f.method = W.result) (here : W.Stands f.pc code)
    (hidden : ∀ q, f.pc ≤ q → q < f.pc + code.length → W.Hidden q) (h : W.Settles cls host ⟨g, cs, w'⟩) :
    W.Settles cls host ⟨f, cs, w⟩ :=
  ofTakes (performs.takes (here.reads own rfl) cs fun g hg low high _ =>
    ⟨hg.trans own, hidden g.pc low high⟩) h

end Settles

/-! ## Exceptions -/

/-- A handler of a suspendable method starts at the piece of its label. -/
theorem handlerFor_eq_some (hm : f.method = W.result) {place pc : Nat} {exc : ObjectId}
    {regions : List Region} (hr : ∀ r ∈ regions, r ∈ W.method.code.regions)
    (h : f.handlerFor host w place exc regions = .ok (some pc)) :
    ∃ j, j < W.instrs.length ∧ pc = W.placeOf j := by
  induction regions with
  | nil => cases h
  | cons r rest ih =>
    have later := ih fun r h => hr r (by simp [h])
    obtain ⟨covered, -, h⟩ := bind_eq_ok.1 h
    split at h
    · obtain ⟨caught, -, h⟩ := bind_eq_ok.1 h
      split at h
      · obtain ⟨j, hj, -, target⟩ := target_handler hm (hr r (by simp))
        obtain ⟨pc', hpc, h⟩ := bind_eq_ok.1 h
        cases h
        exact ⟨j, (List.getElem?_eq_some_iff.1 hj).1, Except.ok.inj (hpc.symm.trans target)⟩
      · exact later h
    · exact later h

theorem settled_catching (pending : w.contexts.pending = none) (intact : w.heap.HandlesIntact)
    (upright : W.Upright cls w ids f) (alive : W.Alive cls w ids cs) {exc : ObjectId} {place pc : Nat}
    (found : f.handlerFor host w place exc f.method.code.regions = .ok (some pc)) :
    W.Settled cls ⟨f.catching exc pc, cs, w⟩ := by
  refine ⟨pending, intact, ⟨ids, upright.congr rfl rfl, alive⟩, fun own => ?_⟩
  have own : f.method = W.result := own
  obtain ⟨j, hj, rfl⟩ := handlerFor_eq_some own (by rw [own]; exact fun r hr => hr) found
  exact ready_placeOf (Nat.le_of_lt hj)

/-- An exception that is caught leaves a settled run.  It goes up the callers until one of them catches it. -/
theorem settled_unwind (pending : w.contexts.pending = none) (intact : w.heap.HandlesIntact)
    (upright : W.Upright cls w ids f) (alive : W.Alive cls w ids cs) {exc : ObjectId}
    (h : Run.unwind host w exc f cs = .running r') : W.Settled cls r' := by
  induction cs generalizing f ids with
  | nil =>
    rw [Run.unwind_eq] at h
    split at h
    · cases h
    · next found =>
      cases h
      exact settled_catching pending intact upright alive found
    · cases h
  | cons c cs ih =>
    rw [Run.unwind_eq] at h
    split at h
    · cases h
    · next found =>
      cases h
      exact settled_catching pending intact upright alive found
    · obtain ⟨ids', upright', alive', -⟩ := alive.head
      exact ih upright' alive' h

/-- A method that is left leaves its caller settled. -/
theorem settled_leave (pending : w.contexts.pending = none) (intact : w.heap.HandlesIntact)
    (alive : W.Alive cls w ids cs) {v : Option Value} (h : Run.leave w v cs = .running r') :
    W.Settled cls r' := by
  cases cs with
  | nil => cases h
  | cons c cs =>
    cases h
    obtain ⟨ids', upright, alive', ready⟩ := alive.head
    have method : (c.frame.receive c.result v).method = c.frame.method := by
      cases c.result <;> rfl
    have locals : (c.frame.receive c.result v).locals = c.frame.locals := by
      cases c.result <;> rfl
    have pc : (c.frame.receive c.result v).pc = c.frame.pc := by
      cases c.result <;> rfl
    refine ⟨pending, intact, ⟨ids', upright.congr method locals, alive'⟩, fun own => ?_⟩
    rw [pc]
    exact ready (method.symm.trans own)

end Weaving

end Suspension
