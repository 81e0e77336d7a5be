import Suspension.Machine.Frame

/-!
# Local slots

A store ends the values that it has a word in common with, so no two values of a frame overlap.

## Main definitions
* `LocalValues.Apart`: no two values have a word in common.

## Main results
* `LocalValues.Apart.store`: a store keeps the values apart.
* `LocalValues.getElem?_store_above`, `LocalValues.getElem?_store_of_le`: slots that a store leaves alone.
* `Frame.getElem?_layOut`, `Frame.apart_layOut`: the slots of a frame that a call starts from.
-/

namespace Suspension

theorem Value.words_pos (v : Value) : 0 < v.words := by
  cases v <;> exact Nat.succ_pos _

theorem Value.words_le (v : Value) : v.words ≤ 2 := by
  cases v <;> simp [words, width, Width.words]

namespace LocalValues

variable {m : LocalValues} {s t : Slot} {u v : Value}

/-- A store leaves the slots above its value alone. -/
theorem getElem?_store_above (h : t.toNat + v.words ≤ s.toNat) : (m.store t v)[s]? = m[s]? := by
  have ne : s ≠ t := by
    rintro rfl
    have := v.words_pos
    omega
  rw [getElem?_store, if_neg ne]
  cases hw : m[s]? with
  | none => rfl
  | some u =>
    have : ¬ s.toNat < t.toNat + v.words := by omega
    simp [overlap, this]

/-- A store leaves a value alone that ends below it. -/
theorem getElem?_store_of_le (hs : m[s]? = some u) (h : s.toNat + u.words ≤ t.toNat) :
    (m.store t v)[s]? = some u := by
  have ne : s ≠ t := by
    rintro rfl
    have := u.words_pos
    omega
  have : ¬ t.toNat < s.toNat + u.words := by omega
  rw [getElem?_store, if_neg ne, hs]
  simp [overlap, this]

/-- No two values have a word in common. -/
def Apart (m : LocalValues) : Prop :=
  ∀ s v t w, m[s]? = some v → m[t]? = some w → s ≠ t → overlap s v t w = false

theorem apart_empty : Apart ∅ := by
  intro s v t w hs
  simp at hs

theorem overlap_comm (s : Slot) (v : Value) (t : Slot) (w : Value) :
    overlap s v t w = overlap t w s v := by
  rw [overlap, overlap, Bool.and_comm]

/-- A store keeps the values apart. -/
theorem Apart.store (h : m.Apart) (s : Slot) (v : Value) : (m.store s v).Apart := by
  have cases {t : Slot} {w : Value} (ht : (m.store s v)[t]? = some w) :
      t = s ∧ w = v ∨ t ≠ s ∧ m[t]? = some w ∧ overlap s v t w = false := by
    rw [getElem?_store] at ht
    split at ht
    · next e => exact .inl ⟨e, by simpa using ht.symm⟩
    · next ne => exact .inr ⟨ne, by simpa [Option.filter_eq_some_iff] using ht⟩
  intro t w t' w' ht ht' ne
  rcases cases ht with ⟨rfl, rfl⟩ | ⟨-, old, free⟩
  · rcases cases ht' with ⟨rfl, -⟩ | ⟨-, -, free'⟩
    · exact absurd rfl ne
    · exact free'
  · rcases cases ht' with ⟨rfl, rfl⟩ | ⟨-, old', -⟩
    · rw [overlap_comm, free]
    · exact h t w t' w' old old' ne

/-- A value below another one ends there. -/
theorem Apart.words_le (h : m.Apart) (hs : m[s]? = some u) (ht : m[t]? = some v)
    (below : s.toNat < t.toNat) : s.toNat + u.words ≤ t.toNat := by
  have free := h s u t v hs ht (by rintro rfl; omega)
  have := v.words_pos
  simp only [overlap, Bool.and_eq_false_iff, decide_eq_false_iff_not] at free
  omega

end LocalValues

/-! ## Arguments -/

namespace Frame

variable {f : Frame} {slot : Nat} {args : List Value}

theorem layOut_eq (f : Frame) (slot : Nat) (args : List Value) :
    (f.layOut slot args).method = f.method ∧ (f.layOut slot args).stack = f.stack ∧
      (f.layOut slot args).pc = f.pc := by
  induction args generalizing f slot with
  | nil => exact ⟨rfl, rfl, rfl⟩
  | cons v vs ih => exact ih (f.setLocal (UInt16.ofNat slot) v) _

/-- Arguments are laid out above what ends below them. -/
theorem getElem?_layOut {s : Slot} {u : Value} (hs : f.locals[s]? = some u)
    (below : s.toNat + u.words ≤ slot) (room : slot + total Value.words args < 65536) :
    (f.layOut slot args).locals[s]? = some u := by
  induction args generalizing f slot with
  | nil => exact hs
  | cons v vs ih =>
    simp only [total_cons] at room
    have slot_eq : (UInt16.ofNat slot).toNat = slot := UInt16.toNat_ofNat_of_lt' (by simp [UInt16.size]; omega)
    exact ih (LocalValues.getElem?_store_of_le hs (slot_eq.symm ▸ below)) (by omega) (by omega)

/-- The values of a frame that a call starts from are apart. -/
theorem apart_layOut (h : f.locals.Apart) : (f.layOut slot args).locals.Apart := by
  induction args generalizing f slot with
  | nil => exact h
  | cons v vs ih => exact ih (h.store _ v)

theorem enter_eq_ok {method : Method} (h : enter method args = .ok f) :
    total Value.words args < 65536 ∧ f = ({ method } : Frame).layOut 0 args := by
  unfold enter at h
  split at h
  · next room => exact ⟨room, (Except.ok.inj h).symm⟩
  · cases h

end Frame

end Suspension
