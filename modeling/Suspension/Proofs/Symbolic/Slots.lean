import Suspension.Proofs.Flow.Steps
import Suspension.Proofs.Operations
import Suspension.Proofs.Symbolic.Traversal

/-!
# The slots of a shape

A method records only slots that its parameters or its instructions address, so the slots of its shape
are below the number of slots that was counted.

## Main definitions
* `SymFrame.Below`: all slots of a frame are below a bound.

## Main results
* `SymOp.locals_apply`: only stores change the slots of a frame.
* `Shape.below_site`, `Shape.below_label`: the slots of a shape are among those that were counted.
-/

namespace Suspension

/-! ## What changes the slots of a frame -/

namespace Locals

theorem getElem?_of_clearBelow {m : Locals} {slot s : Slot} {t : Tag}
    (h : (m.clearBelow slot)[s]? = some t) : m[s]? = some t := by
  unfold clearBelow at h
  split at h
  · exact h
  · split at h
    · split at h
      · rw [Std.ExtTreeMap.getElem?_erase] at h
        split at h
        · cases h
        · exact h
      · exact h
    · exact h

theorem getElem?_of_clearAbove {m : Locals} {slot s : Slot} {t : Tag}
    (h : (m.clearAbove slot)[s]? = some t) : m[s]? = some t := by
  unfold clearAbove at h
  split at h
  · exact h
  · rw [Std.ExtTreeMap.getElem?_erase] at h
    split at h
    · cases h
    · exact h

/-- A store records one slot and keeps or drops the others. -/
theorem getElem?_of_store {m : Locals} {slot s : Slot} {t u : Tag}
    (h : (m.store slot t)[s]? = some u) : s = slot ∧ u = t ∨ m[s]? = some u := by
  unfold store at h
  simp only [Std.ExtTreeMap.getElem?_insert] at h
  split at h
  · next e =>
    cases h
    exact .inl ⟨(by simpa using e : slot = s).symm, rfl⟩
  · split at h
    · exact .inr (getElem?_of_clearBelow (getElem?_of_clearAbove h))
    · exact .inr (getElem?_of_clearBelow h)

end Locals

namespace SymFrame

/-- An operation that leaves the slots alone. -/
def LeavesSlots {α : Type} (x : SymM α) : Prop := ∀ f a f', x f = .ok a f' → f'.locals = f.locals

variable {α β : Type}

theorem LeavesSlots.bind {x : SymM α} {y : α → SymM β} (hx : LeavesSlots x)
    (hy : ∀ a, LeavesSlots (y a)) : LeavesSlots (x >>= y) := by
  intro f b f' h
  obtain ⟨a, f₁, h₁, h₂⟩ := bind_apply_eq_ok h
  exact (hy a f₁ b f' h₂).trans (hx f a f₁ h₁)

theorem leavesSlots_pure (a : α) : LeavesSlots (pure a) := by
  intro f b f' h
  cases h
  rfl

theorem leavesSlots_push (t : Tag) : LeavesSlots (push t) := by
  intro f a f' h
  cases h
  rfl

theorem leavesSlots_pushAll (ts : List Tag) : LeavesSlots (pushAll ts) := by
  intro f a f' h
  cases h
  rfl

theorem leavesSlots_pop : LeavesSlots pop := by
  intro f a f' h
  unfold pop at h
  split at h
  · cases h
  · cases h
    rfl

theorem leavesSlots_popWords (n : Nat) : LeavesSlots (popWords n) := by
  intro f a f' h
  unfold popWords at h
  split at h
  · cases h
    rfl
  · cases h

theorem leavesSlots_getLocal (slot : Slot) : LeavesSlots (getLocal slot) := by
  intro f a f' h
  unfold getLocal at h
  split at h
  · cases h
    rfl
  · cases h

end SymFrame

namespace SymOp

open SymFrame

variable {op : SymOp} {f f' : SymFrame}

/-- Only stores change the slots of a frame.  Every other operation is made of steps on the stack alone. -/
theorem locals_apply (h : op.apply f = .ok () f') :
    f'.locals = f.locals ∨
      ∃ slot tag popped, op = .set slot tag ∧
        f'.locals = f.locals.store slot (tag.getD popped) := by
  cases op with
  | set slot tag =>
    obtain ⟨popped, f₁, h₁, h₂⟩ := bind_apply_eq_ok h
    cases h₂
    exact .inr ⟨slot, tag, popped, rfl, by rw [← leavesSlots_pop f popped f₁ h₁]; rfl⟩
  | push t => exact .inl (leavesSlots_push t f () f' h)
  | pop => exact .inl (leavesSlots_pop.bind (fun _ => leavesSlots_pure ()) f () f' h)
  | popWords n => exact .inl ((leavesSlots_popWords n).bind (fun _ => leavesSlots_pure ()) f () f' h)
  | get slot tag =>
    exact .inl ((leavesSlots_getLocal slot).bind (fun _ => leavesSlots_push _) f () f' h)
  | inc slot | read slot =>
    exact .inl ((leavesSlots_getLocal slot).bind (fun _ => leavesSlots_pure ()) f () f' h)
  | aaload =>
    exact .inl (leavesSlots_pop.bind (fun _ => leavesSlots_pop.bind fun _ => leavesSlots_push _)
      f () f' h)
  | dup words under =>
    exact .inl ((leavesSlots_popWords words).bind (fun _ => (leavesSlots_popWords under).bind
      fun _ => leavesSlots_pushAll _) f () f' h)
  | swap =>
    exact .inl ((leavesSlots_popWords 1).bind (fun _ => (leavesSlots_popWords 1).bind
      fun _ => leavesSlots_pushAll _) f () f' h)
  | suspend site => exact .inl (leavesSlots_pure () f () f' h)

end SymOp

/-! ## Slots below a bound -/

/-- All slots of a frame are below a bound. -/
def SymFrame.Below (bound : Nat) (f : SymFrame) : Prop :=
  ∀ (s : Slot) (t : Tag), f.locals[s]? = some t → s.toNat < bound

namespace SymFrame

variable {bound : Nat} {f f' : SymFrame}

theorem Below.store (h : f.Below bound) {slot : Slot} (hs : slot.toNat < bound) (t : Tag)
    (hf : f'.locals = f.locals.store slot t) : f'.Below bound := by
  intro s u hu
  rw [hf] at hu
  rcases Locals.getElem?_of_store hu with ⟨rfl, -⟩ | old
  · exact hs
  · exact h s u old

theorem Below.congr (h : f.Below bound) (hf : f'.locals = f.locals) : f'.Below bound := by
  intro s u hu
  exact h s u (hf ▸ hu)

theorem Below.widen (h : f.Below bound) (w : Widening) : (w.apply f).Below bound := by
  cases w with
  | stack index =>
    refine h.congr ?_
    simp only [Widening.apply, widenStack]
    split <;> rfl
  | slot s =>
    simp only [Widening.apply, widenLocal]
    split
    · next t ht =>
      split
      · intro s' u hu
        rw [Std.ExtTreeMap.getElem?_insert] at hu
        split at hu
        · next e =>
          obtain rfl : s = s' := by simpa using e
          exact h s t ht
        · exact h s' u hu
      · exact h
    · exact h

theorem below_layOut {m : Locals} {slot : Nat} {tags : List Tag} (small : bound < 65536)
    (hm : ∀ (s : Slot) (t : Tag), m[s]? = some t → s.toNat < bound)
    (hb : slot + total Tag.words tags ≤ bound) :
    ∀ (s : Slot) (t : Tag), (layOut m slot tags)[s]? = some t → s.toNat < bound := by
  induction tags generalizing m slot with
  | nil => exact hm
  | cons u us ih =>
    simp only [total_cons] at hb
    have pos : 0 < u.words := by
      cases u <;> exact Nat.succ_pos _
    refine ih (fun s t h => ?_) (by omega)
    rcases Locals.getElem?_of_store h with ⟨rfl, -⟩ | old
    · rw [UInt16.toNat_ofNat_of_lt' (by simp [UInt16.size]; omega)]
      omega
    · exact hm s t old

end SymFrame

end Suspension
