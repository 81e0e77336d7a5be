/-!
# Arenas

An arena hands out ids in order and never hands out the same id twice, so an id that was removed
stays unknown for ever.

## Main definitions
* `Arena`: the table of everything that was ever added; a removed entry leaves a hole.
* `Arena.get?`, `Arena.push`, `Arena.set`, `Arena.remove`, `Arena.ids`.
-/

namespace Suspension

/-- Values under ids `0, 1, 2, …` in the order in which they were added. -/
structure Arena (α : Type) where
  slots : Array (Option α) := #[]
  deriving DecidableEq

namespace Arena

variable {α : Type}

/-- The arena to which nothing was ever added. -/
def empty : Arena α := {}

instance : Inhabited (Arena α) := ⟨empty⟩

/-- The id that the next addition gets. -/
def nextId (a : Arena α) : Nat := a.slots.size

/-- Adds `x` under `a.nextId`. -/
def push (a : Arena α) (x : α) : Arena α := ⟨a.slots.push (some x)⟩

/-- The live value under `id`. -/
def get? (a : Arena α) (id : Nat) : Option α := a.slots[id]?.join

/-- Whether `id` is live. -/
def contains (a : Arena α) (id : Nat) : Bool := (a.get? id).isSome

/-- Replaces the value under a live id; any other id leaves the arena as it is. -/
def set (a : Arena α) (id : Nat) (x : α) : Arena α :=
  if a.contains id then ⟨a.slots.setIfInBounds id (some x)⟩ else a

/-- Forgets the value under `id`. -/
def remove (a : Arena α) (id : Nat) : Arena α := ⟨a.slots.setIfInBounds id none⟩

/-- The live ids in ascending order. -/
def ids (a : Arena α) : List Nat := (List.range a.slots.size).filter a.contains

/-- The live ids with their values, in ascending order. -/
def toList (a : Arena α) : List (Nat × α) :=
  (List.range a.slots.size).filterMap fun id => (a.get? id).map (id, ·)

/-- The number of live ids. -/
def size (a : Arena α) : Nat := a.ids.length

/-- Whether no id is live. -/
def isEmpty (a : Arena α) : Bool := a.ids.isEmpty

@[simp] theorem nextId_push (a : Arena α) (x : α) : (a.push x).nextId = a.nextId + 1 := by
  simp [nextId, push]

@[simp] theorem nextId_remove (a : Arena α) (id : Nat) : (a.remove id).nextId = a.nextId := by
  simp [nextId, remove]

@[simp] theorem nextId_set (a : Arena α) (id : Nat) (x : α) : (a.set id x).nextId = a.nextId := by
  unfold set
  split <;> simp [nextId]

theorem get?_push (a : Arena α) (x : α) (id : Nat) :
    (a.push x).get? id = if id = a.nextId then some x else a.get? id := by
  simp only [get?, push, nextId, Array.getElem?_push]
  by_cases h : id = a.slots.size <;> simp [h]

theorem get?_remove (a : Arena α) (id other : Nat) :
    (a.remove id).get? other = if other = id then none else a.get? other := by
  simp only [get?, remove, Array.getElem?_setIfInBounds]
  by_cases h : id = other
  · subst h
    by_cases hb : id < a.slots.size <;> simp [hb]
  · simp [h, Ne.symm h]

theorem get?_set (a : Arena α) (id other : Nat) (x : α) :
    (a.set id x).get? other =
      if other = id ∧ a.contains id = true then some x else a.get? other := by
  unfold set
  by_cases hc : a.contains id = true
  · have hb : id < a.slots.size := by
      apply Decidable.byContradiction
      intro hlt
      simp [contains, get?, Array.getElem?_eq_none (Nat.le_of_not_lt hlt)] at hc
    rw [if_pos hc]
    simp only [get?, Array.getElem?_setIfInBounds]
    by_cases h : id = other
    · subst h
      simp [hb, hc]
    · simp [h, Ne.symm h]
  · simp [hc]

theorem get?_eq_none_of_le (a : Arena α) {id : Nat} (h : a.nextId ≤ id) : a.get? id = none := by
  simp [get?, Array.getElem?_eq_none h]

end Arena

end Suspension
