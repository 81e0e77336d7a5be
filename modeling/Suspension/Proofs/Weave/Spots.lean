import Suspension.Proofs.Symbolic.Sections
import Suspension.Proofs.Weave.Linked

/-!
# The sections of suspendable code

Suspendable code of a method without handlers falls into sections that are entered at their starts only: what
comes in front of the start of the method, the copies of the parameters, the code of each instruction, and for
a suspension site, the code behind the label at which it is resumed.

## Main definitions
* `Spot`: which section it is.
* `Weaving.Part`: the sections with their places.

## Main results
* `Weaving.Part.unique`: no two sections start at the same place.
* `Weaving.Part.stands`: the sections stand at their places.
-/

namespace Suspension

/-- The sections of suspendable code: the entry, the start of the method, the code of an instruction, and the
code behind the resumption label of a site. -/
inductive Spot where
  | entry
  | start
  | piece (i : Nat)
  | behind (i : Nat)

namespace Weaving

variable {W : Weaving} {i : Nat}

/-! ## Pieces -/

theorem piece_ne_nil {ins : Instr} (hi : W.instrs[i]? = some ins) : W.piece i ≠ [] := by
  cases hd : ins.defined? with
  | some l =>
    obtain rfl := defined?_eq_some.1 hd
    obtain ⟨check, hp⟩ := exists_piece_label hi
    simp [hp]
  | none =>
    cases hr : ins.isReturn with
    | true =>
      obtain ⟨k, rfl⟩ := Instr.isReturn_iff.1 hr
      simp [piece_return hi]
    | false =>
      cases site : W.config.site? W.className ins with
      | none =>
        obtain ⟨fetched, -, hp⟩ := piece_other hi hd hr site
        simp [hp]
      | some s =>
        obtain ⟨kind, sort, m⟩ := s
        cases suspends : sort.suspends with
        | true =>
          obtain ⟨s, hp⟩ := piece_site hi site suspends
          simp [hp, Plan.SiteCode.code]
        | false =>
          obtain rfl : sort = .answer := by simpa [SiteKind.suspends] using suspends
          obtain ⟨sig, -, hp⟩ := bind_eq_ok.1 (piece_answer hi site)
          intro empty
          rw [empty] at hp
          simp [pure, Except.pure] at hp

theorem placeOf_lt (hi : i < W.instrs.length) : W.placeOf i < W.placeOf (i + 1) := by
  have pos := List.length_pos_iff.2 (piece_ne_nil (List.getElem?_eq_getElem hi))
  rw [placeOf_succ hi]
  omega

/-- A place lies in one piece only. -/
theorem index_eq {j place : Nat} (low : W.placeOf i ≤ place) (high : place < W.placeOf (i + 1))
    (low' : W.placeOf j ≤ place) (high' : place < W.placeOf (j + 1)) : i = j := by
  rcases Nat.lt_trichotomy i j with lt | same | lt
  · have : W.placeOf (i + 1) ≤ W.placeOf j := placeOf_mono lt
    omega
  · exact same
  · have : W.placeOf (j + 1) ≤ W.placeOf i := placeOf_mono lt
    omega

/-- Behind the pieces there is nothing, unless some handler lets signals through. -/
theorem lt_of_placeOf_lt (regions : W.method.code.regions = []) {j : Nat} (lt : W.placeOf j < W.stream.length) :
    j < W.instrs.length := by
  have noHandler (l : Label) : W.plan.isHandler l = false := by
    rw [Plan.isHandler, W.made.method_eq, regions]
    rfl
  have none : W.plan.epilogue = [] := by
    rw [Plan.epilogue, if_neg]
    simp only [List.any_eq_true, not_exists, not_and]
    intro ins _
    cases ins.defined? <;> simp [noHandler]
  refine Nat.lt_of_not_le fun le => ?_
  have stream : W.stream = W.front ++ W.pieces.flatten := by rw [Weaving.stream, none, List.append_nil]
  rw [placeOf, List.take_of_length_le (W.length_pieces ▸ le), stream, List.length_append] at lt
  exact Nat.lt_irrefl _ lt

/-! ## Sections -/

/-- The sections of suspendable code, with their places. -/
inductive Part (W : Weaving) : Spot → Nat → List Instr → Prop
  | entry : Part W .entry 0 (W.plan.obtaining ++ W.plan.dispatch)
  | start {sig : Signature} (parsed : W.method.signature = .ok sig) :
      Part W .start (W.plan.obtaining ++ W.plan.dispatch).length
        (.label W.plan.start :: W.plan.recordParams W.plan.method.receiverSlots sig.params)
  | piece {i : Nat} {ins : Instr} (hi : W.instrs[i]? = some ins)
      (stays : W.config.suspends W.className ins = false) : Part W (.piece i) (W.placeOf i) (W.piece i)
  | leaving {i : Nat} (s : W.Suspends i) : Part W (.piece i) (W.placeOf i) s.code.leaving
  | behind {i : Nat} (s : W.Suspends i) :
      Part W (.behind i) (W.placeOf i + s.code.leaving.length) (.label s.code.resumption :: s.code.returning)

theorem exists_part (hi : i < W.instrs.length) : ∃ code, W.Part (.piece i) (W.placeOf i) code := by
  have here := List.getElem?_eq_getElem hi
  cases suspends : W.config.suspends W.className W.instrs[i] with
  | false => exact ⟨_, .piece here suspends⟩
  | true =>
    obtain ⟨s⟩ := exists_suspends here suspends
    exact ⟨_, .leaving s⟩

theorem Suspends.length_piece (s : W.Suspends i) :
    (W.piece i).length = s.code.leaving.length + (s.code.returning.length + 1) := by
  rw [s.piece, Plan.SiteCode.code, List.length_append, List.length_cons]

namespace Part

variable {a b : Spot} {place : Nat} {code code' : List Instr}

/-- The code that leaves at a site is not empty. -/
theorem leaving_pos (s : W.Suspends i) : 0 < s.code.leaving.length := by
  rw [Plan.SiteCode.leaving, Plan.throwSignal_eq]
  simp only [List.length_append, List.length_singleton]
  omega

/-- Where a section may start. -/
theorem within (h : W.Part a place code) :
    match a with
    | .entry => place = 0
    | .start => 0 < place ∧ place < W.placeOf 0
    | .piece i => place = W.placeOf i ∧ place < W.placeOf (i + 1)
    | .behind i => W.placeOf i < place ∧ place < W.placeOf (i + 1) := by
  cases h with
  | entry => rfl
  | start =>
    obtain ⟨sig, -, front⟩ := W.front_eq
    rw [placeOf_zero, front]
    simp [Plan.obtaining]
  | piece hi => exact ⟨rfl, placeOf_lt (List.getElem?_eq_some_iff.1 hi).1⟩
  | leaving s => exact ⟨rfl, placeOf_lt s.lt⟩
  | behind s =>
    have := leaving_pos s
    have := s.length_piece
    simp only [placeOf_succ s.lt]
    omega

/-- No two sections start at the same place.  The sections of the front come first, and those of one piece share
no start with those of another. -/
theorem unique (h : W.Part a place code) (h' : W.Part b place code') : a = b := by
  have first (i : Nat) : W.placeOf 0 ≤ W.placeOf i := placeOf_mono (Nat.zero_le i)
  have front : 0 < W.placeOf 0 := by
    obtain ⟨sig, -, front⟩ := W.front_eq
    rw [placeOf_zero, front, List.length_append, List.length_cons]
    omega
  have here := h.within
  have here' := h'.within
  cases a with
  | entry | start =>
    cases b with
    | entry | start => first | rfl | (exfalso; simp only at here here'; omega)
    | piece j | behind j =>
      have := first j
      simp only at here here'
      omega
  | piece i | behind i =>
    have := first i
    cases b with
    | entry | start =>
      simp only at here here'
      omega
    | piece j | behind j =>
      simp only at here here'
      obtain rfl : i = j := index_eq (by omega) here.2 (by omega) here'.2
      first | rfl | (exfalso; omega)

/-- The sections stand at their places. -/
theorem stands (h : W.Part a place code) : code <+: W.result.code.instrs.drop place := by
  obtain ⟨sig, parsed, front⟩ := W.front_eq
  have fore := W.stands_front
  rw [front] at fore
  cases h with
  | entry => exact fore.left
  | start parsed' =>
    cases parsed.symm.trans parsed'
    have := fore.right
    rwa [Nat.zero_add] at this
  | piece hi => exact stands_piece (List.getElem?_eq_some_iff.1 hi).1
  | leaving s =>
    have own : W.Stands _ _ := stands_piece s.lt
    rw [s.piece] at own
    exact own.left
  | behind s =>
    have own : W.Stands _ _ := stands_piece s.lt
    rw [s.piece] at own
    exact own.right

end Part

end Weaving

end Suspension
