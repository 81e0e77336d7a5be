import Suspension.Proofs.Container.Canonical

/-!
# Code of bounded size

The parts of an instruction are no longer than its written form.  So all that is needed to write code are a
bound on the bytes of the whole and switches that have a target for each number of their range.

## Main definitions
* `Instr.Even`: a switch over a range has as many targets as numbers.

## Main results
* `Instr.encodable_of_length`, `Code.encodable_of_length`: short code can be written.
* `Container.encodable_of_decodeClass`: what was read can be written.
-/

namespace Suspension

open Container (Encode.name Encode.member Encode.vec Encode.label Encode.constant Encode.instr
  Encode.code Encode.region decodeClass)

/-- A switch over a range has as many targets as there are numbers in the range. -/
def Instr.Even : Instr → Prop
  | .tableSwitch low high _ targets => high.toInt - low.toInt + 1 = targets.length
  | _ => True

theorem Instr.Encodable.even {i : Instr} (h : i.Encodable) : i.Even := by
  cases i with
  | tableSwitch low high default targets => exact h.2
  | _ => trivial

namespace Container

/-- What was read can be written. -/
theorem encodable_of_decodeClass {bytes : List UInt8} {c : Class} (decoded : decodeClass bytes = .ok c) :
    c.Encodable := by
  unfold decodeClass at decoded
  split at decoded
  · next whole =>
    cases decoded
    obtain ⟨-, -, encodable, -⟩ := Parser.canonical_container _ _ _ (Parser.whole_eq_ok.1 whole)
    exact encodable
  · cases decoded

namespace Encode

variable {α : Type}

/-! ## Lengths of parts -/

theorem length_name_ge (s : String) : s.utf8ByteSize ≤ (name s).length := by
  simp [name]

theorem length_member_ge (m : MemberRef) :
    m.owner.utf8ByteSize + m.name.utf8ByteSize + m.descriptor.utf8ByteSize ≤ (member m).length := by
  have owner := length_name_ge m.owner
  have called := length_name_ge m.name
  have descriptor := length_name_ge m.descriptor
  simp only [member, List.length_append]
  omega

/-- A list has no more items than bytes. -/
theorem length_vec_ge {item : α → List UInt8} (pos : ∀ a, 0 < (item a).length) (items : List α) :
    items.length ≤ (vec item items).length := by
  have each : items.length ≤ (items.flatMap item).length := by
    induction items with
    | nil => simp
    | cons a rest ih =>
      have := pos a
      rw [List.flatMap_cons, List.length_append, List.length_cons]
      omega
  rw [vec, List.length_append]
  omega

/-- An item is no longer than the list. -/
theorem length_item_le (item : α → List UInt8) {items : List α} {a : α} (h : a ∈ items) :
    (item a).length ≤ (vec item items).length := by
  obtain ⟨before, after, rfl⟩ := List.append_of_mem h
  simp only [vec, List.flatMap_append, List.flatMap_cons, List.length_append]
  omega

theorem length_label_pos (l : Label) : 0 < (label l).length := Integer.length_unsigned_pos _

theorem length_instr_pos (i : Instr) : 0 < (instr i).length := by
  cases i with
  | iconst v | lconst v | fconst v | dconst v =>
    rw [instr]
    repeat' split
    all_goals simp
  | _ => simp [instr]

end Encode

end Container

open Container

/-! ## Short code -/

theorem Constant.encodable_of_length {c : Constant} (h : (Encode.constant c).length < 2 ^ 32) :
    c.Encodable := by
  cases c with
  | string s | classRef s =>
    have := Encode.length_name_ge s
    simp only [Encode.constant, List.length_cons] at h
    show s.utf8ByteSize < 2 ^ 32
    omega
  | int | float | long | double => trivial

/-- An instruction whose written form is short can be written, if a switch has as many targets as numbers.
Every length that is written as 32 bits counts bytes that follow it, so it is below the length of the whole. -/
theorem Instr.encodable_of_length {i : Instr} (even : i.Even) (h : (Encode.instr i).length < 2 ^ 32) :
    i.Encodable := by
  cases i with
  | ldc c =>
    simp only [Encode.instr, List.length_cons] at h
    exact Constant.encodable_of_length (by omega)
  | field op m | invoke op m =>
    have := Encode.length_member_ge m
    simp only [Encode.instr, List.length_cons] at h
    exact ⟨by show _ < _; omega, by show _ < _; omega, by show _ < _; omega⟩
  | invokeDynamic n descriptor =>
    have called := Encode.length_name_ge n
    have typed := Encode.length_name_ge descriptor
    simp only [Encode.instr, List.length_cons, List.length_append] at h
    exact ⟨by show _ < _; omega, by show _ < _; omega⟩
  | typed op n =>
    have := Encode.length_name_ge n
    simp only [Encode.instr, List.length_cons] at h
    show n.utf8ByteSize < 2 ^ 32
    omega
  | multiNewArray descriptor dims =>
    have := Encode.length_name_ge descriptor
    simp only [Encode.instr, List.length_cons, List.length_append] at h
    show descriptor.utf8ByteSize < 2 ^ 32
    omega
  | tableSwitch low high default targets =>
    have := Encode.length_vec_ge Encode.length_label_pos targets
    simp only [Encode.instr, List.length_cons, List.length_append] at h
    exact ⟨by omega, even⟩
  | lookupSwitch default pairs =>
    have pos (p : Int32 × Label) : 0 < (Integer.signed p.1.toInt ++ Encode.label p.2).length := by
      have := Encode.length_label_pos p.2
      rw [List.length_append]
      omega
    have := Encode.length_vec_ge pos pairs
    simp only [Encode.instr, List.length_cons, List.length_append] at h
    show pairs.length < 2 ^ 32
    omega
  | plain | iconst | lconst | fconst | dconst | bipush | sipush | slot | iinc | jump | newArray | label =>
    trivial

/-- Code whose written form is short can be written with the regions of other code, if each switch has as many
targets as numbers. -/
theorem Code.encodable_of_length {c d : Code} (even : ∀ i ∈ c.instrs, i.Even)
    (regions : c.regions = d.regions) (other : d.Encodable) (h : (Encode.code c).length < 2 ^ 32) :
    c.Encodable := by
  rw [Encode.code, List.length_append] at h
  have count := Encode.length_vec_ge Encode.length_instr_pos c.instrs
  refine ⟨by omega, fun i hi => ?_, regions ▸ other.regions, regions ▸ other.caught⟩
  have := Encode.length_item_le Encode.instr hi
  exact Instr.encodable_of_length (even i hi) (by omega)

end Suspension
