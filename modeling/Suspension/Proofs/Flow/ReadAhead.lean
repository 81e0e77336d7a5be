import Mathlib.Logic.Function.Iterate
import Suspension.Proofs.Flow.Liveness
import Suspension.Proofs.Symbolic.Alike

/-!
# Live slots are those that are read ahead

A slot is live on entry to a block exactly if a walk through the graph leads from there to a block that reads
it before it defines it, and no block that the walk runs through defines it.  A block that the walk leaves by
an exception may define it nevertheless: the exception may come before the store.

## Main definitions
* `SymOp.Defines`: what a store defines, in numbers of slots.
* `Block.ReadsFirst`: a block reads a slot before any store of its own defines it.
* `Graph.Walk`: a walk along edges of any kind.
* `Liveness.round`: the equations of all blocks, applied one after the other.

## Main results
* `Block.mem_uses_iff`, `Block.mem_defs_iff`: what is kept of a block for the equations.
* `Liveness.exists_iterate_eq`: bounded sweeping is sweeping.
* `Liveness.Rising.exists_rounds`: rounds come to the same end.
* `live_iff_read_ahead`: the computed sets are exact.
-/

namespace Suspension

/-- An operation defines a slot: it stores there, or it stores a value of two words right below. -/
def SymOp.Defines (op : SymOp) (s : Slot) : Prop :=
  ∃ t tag, op = .set t tag ∧ (s = t ∨ tag.map Tag.isWide = some true ∧ s.toNat = t.toNat + 1)

/-- The topmost slot has none above it, so it is listed twice. -/
theorem mem_definedSlots {t s : Slot} {tag : Option Tag} :
    s ∈ definedSlots t tag ↔ s = t ∨ tag.map Tag.isWide = some true ∧ s.toNat = t.toNat + 1 := by
  have above : s.toNat = t.toNat + 1 ↔ t ≠ 65535 ∧ s = t + 1 := by
    rw [eq_comm, ← Slot.above_iff, eq_comm (a := s)]
  rw [above]
  cases tag with
  | none => simp [definedSlots]
  | some given =>
    cases wide : given.isWide with
    | false => simp [definedSlots, wide]
    | true =>
      by_cases top : t = 65535 <;> simp [definedSlots, wide, top]

theorem SymOp.mem_defined_iff {op : SymOp} {s : Slot} : s ∈ op.defined ↔ op.Defines s := by
  cases op with
  | set t tag =>
    rw [defined, mem_definedSlots]
    constructor
    · intro h
      exact ⟨t, tag, rfl, h⟩
    · rintro ⟨t', tag', same, h⟩
      cases same
      exact h
  | _ => simp [defined, Defines]

namespace Block

/-- Some operation of a block defines a slot. -/
def Defines (b : Block) (s : Slot) : Prop := ∃ x ∈ b.steps, x.op.Defines s

/-- A block reads a slot, and no operation before that defines it. -/
def ReadsFirst (b : Block) (s : Slot) : Prop :=
  ∃ before x after, b.steps = before ++ x :: after ∧ x.op.Reads s ∧ ∀ y ∈ before, ¬ y.op.Defines s

end Block

/-! ## What is kept of a block -/

namespace Accesses

variable {a : Accesses} {s : Slot} {steps : List Step}

theorem mem_defs_after_iff : s ∈ (a.after steps).defs ↔ s ∈ a.defs ∨ ∃ x ∈ steps, x.op.Defines s := by
  induction steps generalizing a with
  | nil => simp [after]
  | cons x rest ih =>
    show s ∈ ((a.step x.op).after rest).defs ↔ _
    rw [ih, mem_defs_step, SymOp.mem_defined_iff, or_assoc]
    simp

/-- Some steps use what they read before they define it, unless it was defined before them.  The first of them
reads the slot, or leaves it undefined for a later one to read. -/
theorem mem_uses_after_iff :
    s ∈ (a.after steps).uses ↔ s ∈ a.uses ∨ s ∉ a.defs ∧
      ∃ before x after, steps = before ++ x :: after ∧ x.op.Reads s ∧ ∀ y ∈ before, ¬ y.op.Defines s := by
  induction steps generalizing a with
  | nil => simp [after]
  | cons x rest ih =>
    show s ∈ ((a.step x.op).after rest).uses ↔ _
    rw [ih, mem_uses_step_iff, mem_defs_step, SymOp.mem_defined_iff, not_or, or_assoc]
    refine or_congr_right ⟨?_, ?_⟩
    · rintro (⟨reads, fresh⟩ | ⟨⟨fresh, passes⟩, before, y, after, rfl, reads, none⟩)
      · exact ⟨fresh, [], x, rest, rfl, reads, by simp⟩
      · refine ⟨fresh, x :: before, y, after, rfl, reads, ?_⟩
        intro z hz
        rcases List.mem_cons.1 hz with rfl | hz
        · exact passes
        · exact none z hz
    · rintro ⟨fresh, before, y, after, steps_eq, reads, none⟩
      cases before with
      | nil =>
        cases steps_eq
        exact .inl ⟨reads, fresh⟩
      | cons z before =>
        cases steps_eq
        have passes : ¬ x.op.Defines s := none x List.mem_cons_self
        exact .inr ⟨⟨fresh, passes⟩, before, y, after, rfl, reads,
          fun w hw => none w (List.mem_cons_of_mem x hw)⟩

end Accesses

namespace Block

variable {b : Block} {s : Slot}

theorem mem_defs_iff : s ∈ b.accesses.defs ↔ b.Defines s := by
  show s ∈ (({} : Accesses).after b.steps).defs ↔ _
  rw [Accesses.mem_defs_after_iff]
  simp [Defines, Std.ExtTreeSet.not_mem_empty]

theorem mem_uses_iff : s ∈ b.accesses.uses ↔ b.ReadsFirst s := by
  show s ∈ (({} : Accesses).after b.steps).uses ↔ _
  rw [Accesses.mem_uses_after_iff]
  simp [ReadsFirst, Std.ExtTreeSet.not_mem_empty]

end Block

/-! ## Walks -/

/-- A walk from a block to another along edges of any kind; the blocks that it leaves are listed, each with the
edge that it takes. -/
inductive Graph.Walk (g : Graph) : Nat → List (Block × Edge) → Block → Prop
  | here {place : Nat} {b : Block} (block : g.block? place = some b) : Walk g place [] b
  | along {place : Nat} {b last : Block} {e : Edge} {taken : List (Block × Edge)}
      (block : g.block? place = some b) (out : e ∈ b.edges) (more : Walk g e.target taken last) :
      Walk g place ((b, e) :: taken) last

/-- A slot is not defined on the way, except where an exception may come before the store. -/
def Undefined (s : Slot) (taken : List (Block × Edge)) : Prop :=
  ∀ t ∈ taken, t.2.kind ≠ .exception → ¬ t.1.Defines s

namespace Liveness

variable {g : Graph} {place : Nat} {s : Slot}

/-- Sweeping at most so often is sweeping some number of times. -/
theorem exists_iterate_eq (g : Graph) (n : Nat) (live : Liveness) :
    ∃ k ≤ n, iterate g n live = (sweep g)^[k] live := by
  induction n generalizing live with
  | zero => exact ⟨0, Nat.le_refl 0, rfl⟩
  | succ n ih =>
    rw [iterate]
    split
    · exact ⟨0, Nat.zero_le _, rfl⟩
    · obtain ⟨k, le, same⟩ := ih (sweep g live)
      exact ⟨k + 1, Nat.succ_le_succ le, same⟩

/-- What is live on entry to a handler is live on entry to the blocks that may throw to it, even if they define
it. -/
theorem mem_compute_of_exception {b : Block} (hb : g.block? place = some b) {e : Edge} (he : e ∈ b.edges)
    (exception : e.kind = .exception) (target : s ∈ (compute g).liveIn e.target) :
    s ∈ (compute g).liveIn place := by
  rw [← sweep_compute, liveIn_sweep hb, mem_transfer]
  exact .inr (.inr ⟨e, he, exception, target⟩)

/-- What a walk reads at its end, and does not define on its way, is live at its start. -/
theorem mem_compute_of_walk {taken : List (Block × Edge)} {last : Block} (walk : g.Walk place taken last)
    (reads : last.ReadsFirst s) (undefined : Undefined s taken) : s ∈ (compute g).liveIn place := by
  induction walk with
  | here block => exact mem_compute_of_uses block (Block.mem_uses_iff.2 reads)
  | @along place b last e taken block out more ih =>
    have target : s ∈ (compute g).liveIn e.target :=
      ih reads fun t ht => undefined t (List.mem_cons_of_mem _ ht)
    by_cases exception : e.kind = .exception
    · exact mem_compute_of_exception block out exception target
    · have passes : ¬ b.Defines s := undefined (b, e) List.mem_cons_self exception
      exact mem_compute_of_edge block out exception target fun h => passes (Block.mem_defs_iff.1 h)

/-- What is live at a place is read by some walk from there.  The sets are the least solution of the equations,
and the slots that walks read are a solution. -/
theorem exists_walk_of_mem_compute (h : s ∈ (compute g).liveIn place) :
    ∃ taken last, g.Walk place taken last ∧ last.ReadsFirst s ∧ Undefined s taken := by
  refine of_mem_compute (P := fun place s => ∃ taken last, g.Walk place taken last ∧ last.ReadsFirst s ∧
    Undefined s taken) ?_ ?_ h
  · intro place b s block used
    exact ⟨[], b, .here block, Block.mem_uses_iff.1 used, by simp [Undefined]⟩
  · rintro place b e s block out ⟨taken, last, walk, reads, undefined⟩ passes
    refine ⟨(b, e) :: taken, last, .along block out walk, reads, ?_⟩
    intro t ht regular
    rcases List.mem_cons.1 ht with rfl | ht
    · exact fun defines => passes.elim regular fun not => not (Block.mem_defs_iff.2 defines)
    · exact undefined t ht regular

/-! ## Sweeping in place

The sets may as well be replaced one by one, from the last block to the first, each by what the equations make of
those that have been replaced by then.  Such rounds only add slots, too, and never more than were computed, so they
come to the same end.
-/

/-- The equation of one block, applied in place. -/
def update (g : Graph) (live : Liveness) (place : Nat) : Liveness :=
  match g.block? place with
  | some b => live.set place (live.transfer b)
  | none => live

/-- The equations of some blocks, applied one after the other. -/
def updates (g : Graph) (places : List Nat) (live : Liveness) : Liveness := places.foldl (update g) live

/-- One round through all blocks, from the last one to the first. -/
def round (g : Graph) (live : Liveness) : Liveness := updates g (List.range g.blocks.length).reverse live

/-- Sets on the way up: the equations ask for no less than they hold, and no more was computed. -/
structure Rising (g : Graph) (live : Liveness) : Prop where
  length : live.length = g.blocks.length
  grows : Within live (sweep g live)
  below : Within live (compute g)

variable {live more most : Liveness} {places : List Nat}

theorem Within.trans (h : Within live more) (h' : Within more most) : Within live most :=
  fun place slot hs => h' place slot (h place slot hs)

theorem eq_of_within (length : live.length = more.length) (h : Within live more) (h' : Within more live) :
    live = more := by
  apply List.ext_getElem length
  intro place hl hm
  apply Std.ExtTreeSet.ext_mem
  intro slot
  have same : slot ∈ live.liveIn place ↔ slot ∈ more.liveIn place := ⟨h place slot, h' place slot⟩
  simpa [liveIn, hl, hm] using same

@[simp] theorem length_update (place : Nat) : (update g live place).length = live.length := by
  unfold update
  split
  · exact List.length_set
  · rfl

/-- Sets that solve the equations hold all that was computed. -/
theorem within_of_sweep_eq (solved : sweep g live = live) : Within (compute g) live := by
  intro place slot hs
  refine of_mem_compute (P := fun place slot => slot ∈ live.liveIn place) ?_ ?_ hs
  · intro place b slot hb used
    rw [← solved, liveIn_sweep hb, mem_transfer]
    exact .inr (.inl used)
  · intro place b e slot hb he target passes
    rw [← solved, liveIn_sweep hb, mem_transfer]
    by_cases exception : e.kind = .exception
    · exact .inr (.inr ⟨e, he, exception, target⟩)
    · exact .inl ⟨e, he, exception, target, passes.resolve_left exception⟩

namespace Rising

theorem empty (g : Graph) : Rising g (g.blocks.map fun _ => ∅) where
  length := List.length_map _
  grows place slot hs := absurd hs (not_mem_empty g place slot)
  below place slot hs := absurd hs (not_mem_empty g place slot)

theorem of_compute (g : Graph) : Rising g (compute g) where
  length := by rw [← sweep_compute, length_sweep]
  grows place slot hs := by rwa [sweep_compute]
  below place slot hs := hs

/-- An equation applied in place adds slots that the sets themselves ask for.  Only the set of this block is
replaced, by the one that a whole sweep gives it. -/
theorem between (h : Rising g live) (place : Nat) :
    Within live (update g live place) ∧ Within (update g live place) (sweep g live) := by
  unfold update
  split
  · next b hb =>
    have inside : place < live.length := h.length ▸ (List.getElem?_eq_some_iff.1 hb).1
    have replaced (q : Nat) : liveIn (live.set place (live.transfer b)) q =
        if place = q then (sweep g live).liveIn q else live.liveIn q := by
      rw [liveIn, List.getElem?_set]
      split
      · next here =>
        rw [Option.getD_some, ← here, liveIn_sweep hb]
      · rfl
    constructor
    · intro q slot hs
      rw [replaced]
      split
      · exact h.grows q slot hs
      · exact hs
    · intro q slot hs
      rw [replaced] at hs
      split at hs
      · exact hs
      · exact h.grows q slot hs
  · exact ⟨fun _ _ hs => hs, h.grows⟩

theorem after_update (h : Rising g live) (place : Nat) : Rising g (update g live place) where
  length := (length_update place).trans h.length
  grows := (h.between place).2.trans ((h.between place).1.sweep g)
  below := by
    have above := h.below.sweep g
    rw [sweep_compute] at above
    exact (h.between place).2.trans above

theorem after_updates (h : Rising g live) (places : List Nat) :
    Rising g (updates g places live) ∧ Within live (updates g places live) := by
  induction places generalizing live with
  | nil => exact ⟨h, fun _ _ hs => hs⟩
  | cons place rest ih =>
    obtain ⟨rising, within⟩ := ih (h.after_update place)
    exact ⟨rising, (h.between place).1.trans within⟩

/-- If nothing has changed in the end, nothing has changed on the way.  What the first equation added would
still be there in the end. -/
theorem update_eq (h : Rising g live) (same : updates g places live = live) :
    ∀ place ∈ places, update g live place = live := by
  induction places with
  | nil => exact fun _ hp => nomatch hp
  | cons place rest ih =>
    have others : updates g rest (update g live place) = live := same
    have later := ((h.after_update place).after_updates rest).2
    rw [others] at later
    have first : update g live place = live := eq_of_within (length_update place) later (h.between place).1
    rw [first] at others
    intro q hq
    rcases List.mem_cons.1 hq with rfl | hq
    · exact first
    · exact ih others q hq

/-- A round that changes nothing has come to the computed sets.  Every equation of the round was applied to
these same sets. -/
theorem eq_compute (h : Rising g live) (same : round g live = live) : live = compute g := by
  have solved : sweep g live = live := by
    refine eq_of_within (length_sweep.trans h.length.symm) ?_ h.grows
    intro place slot hs
    cases hb : g.block? place with
    | none => simp [liveIn_sweep_of_none hb] at hs
    | some b =>
      have inside : place < g.blocks.length := (List.getElem?_eq_some_iff.1 hb).1
      have kept := h.update_eq same place (by simpa using inside)
      rw [liveIn_sweep hb] at hs
      rw [update, hb] at kept
      rw [← kept]
      simpa [liveIn, h.length, inside] using hs
  exact eq_of_within (h.length.trans (Rising.of_compute g).length.symm) h.below (within_of_sweep_eq solved)

/-- Rounds come to the computed sets, and each one before the last adds a slot that was missing. -/
theorem exists_rounds (h : Rising g live) : ∃ k ≤ missing (read g) live, (round g)^[k] live = compute g := by
  induction room : missing (read g) live using Nat.strongRecOn generalizing live with
  | ind n ih =>
    by_cases same : round g live = live
    · exact ⟨0, Nat.zero_le _, h.eq_compute same⟩
    · have after := h.after_updates (List.range g.blocks.length).reverse
      have rising : Rising g (round g live) := after.1
      have listed (place : Nat) (slot : Slot) (hs : slot ∈ (round g live).liveIn place) : slot ∈ read g := by
        refine of_mem_compute (P := fun _ slot => slot ∈ read g) ?_ ?_ (rising.below place slot hs)
        · intro place b slot hb used
          exact List.mem_flatMap.2 ⟨b, List.mem_of_getElem? hb, Std.ExtTreeSet.mem_toList.2 used⟩
        · intro place b e slot hb he target passes
          exact target
      have less : missing (read g) (round g live) < missing (read g) live :=
        missing_lt (h.length.trans rising.length.symm) after.2 listed same
      obtain ⟨k, le, done⟩ := ih _ (room ▸ less) rising rfl
      exact ⟨k + 1, by omega, done⟩

end Rising

/-- Nothing changes any more in a round over the computed sets. -/
theorem round_compute (g : Graph) : round g (compute g) = compute g := by
  obtain ⟨rising, within⟩ := (Rising.of_compute g).after_updates (List.range g.blocks.length).reverse
  exact eq_of_within (rising.length.trans (Rising.of_compute g).length.symm) rising.below within

end Liveness

/-- The live slots of every graph are found by sweeping until nothing changes, which happens within the number
of sweeps that is provided for, whether all sets are replaced at once or one by one; and they are exact: a slot is live on entry to a block if and only if a walk
leads from there to a block that reads it before it defines it, on which no block defines it that is left other
than by an exception. -/
theorem live_iff_read_ahead (g : Graph) :
    (∃ k ≤ Liveness.sweepBound g,
      Liveness.compute g = (Liveness.sweep g)^[k] (g.blocks.map fun _ => ∅) ∧
      Liveness.sweep g (Liveness.compute g) = Liveness.compute g) ∧
    (∃ k < Liveness.sweepBound g,
      (Liveness.round g)^[k] (g.blocks.map fun _ => ∅) = Liveness.compute g ∧
      Liveness.round g (Liveness.compute g) = Liveness.compute g) ∧
    ∀ (place : Nat) (s : Slot), s ∈ (Liveness.compute g).liveIn place ↔
      ∃ taken last, g.Walk place taken last ∧ last.ReadsFirst s ∧
        ∀ t ∈ taken, t.2.kind ≠ .exception → ¬ t.1.Defines s := by
  refine ⟨?_, ?_, ?_⟩
  · obtain ⟨k, le, same⟩ := Liveness.exists_iterate_eq g (Liveness.sweepBound g) (g.blocks.map fun _ => ∅)
    exact ⟨k, le, same, Liveness.sweep_compute g⟩
  · obtain ⟨k, le, done⟩ := (Liveness.Rising.empty g).exists_rounds
    exact ⟨k, Nat.lt_of_le_of_lt le (Liveness.missing_lt_sweepBound g), done, Liveness.round_compute g⟩
  · intro place s
    constructor
    · exact Liveness.exists_walk_of_mem_compute
    · rintro ⟨taken, last, walk, reads, undefined⟩
      exact Liveness.mem_compute_of_walk walk reads undefined

end Suspension
