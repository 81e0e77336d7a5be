import Mathlib.Tactic.SplitIfs
import Suspension.Proofs.Container.RoundTrip
import Suspension.Proofs.Success

/-!
# The shortest form of a class

A class has many encodings: an integer may be padded, and a constant that has an opcode of its own may be
written in full.  The one that is written is shorter than all the others.  This is shown part by part:
every parser that reads some bytes as a value has read bytes at least as long as the written form of the
value, and bytes of the same length only if they are that form.

## Main definitions
* `Shortest`: a written form is the shortest of those that are read as one value.
* `Parser.Canonical`: what a parser reads can be written, in a form that is the shortest.

## Main results
* `Parser.canonical_unsigned`, `Parser.canonical_signed`: integers.
* `Parser.canonical_sized`: a part behind the number of its bytes, which shrinks with the part.
* `Parser.canonical_instr`, `Parser.canonical_method`, `Parser.canonical_container`: the parts of a class.
* `encodeClass_shortest`: the canonical form is the one shortest form.
-/

namespace Suspension.Container

/-- A written form is no longer than some bytes, and of the same length only if it is these bytes. -/
structure Shortest (written taken : List UInt8) : Prop where
  length_le : written.length ≤ taken.length
  eq_of_length : written.length = taken.length → written = taken

namespace Shortest

variable {written taken written' taken' : List UInt8}

theorem rfl (bytes : List UInt8) : Shortest bytes bytes := ⟨Nat.le_refl _, fun _ => Eq.refl _⟩

theorem of_length_lt (h : written.length < taken.length) : Shortest written taken :=
  ⟨Nat.le_of_lt h, fun e => absurd e (Nat.ne_of_lt h)⟩

theorem trans {longer : List UInt8} (first : Shortest written taken) (second : Shortest taken longer) :
    Shortest written longer := by
  have le₁ := first.length_le
  have le₂ := second.length_le
  refine ⟨by omega, fun same => ?_⟩
  rw [first.eq_of_length (by omega), second.eq_of_length (by omega)]

/-- Forms that are the shortest make up a form that is.  Neither part is longer, so neither can be shorter. -/
theorem append (first : Shortest written taken) (second : Shortest written' taken') :
    Shortest (written ++ written') (taken ++ taken') := by
  have le₁ := first.length_le
  have le₂ := second.length_le
  refine ⟨by simp only [List.length_append]; omega, fun same => ?_⟩
  simp only [List.length_append] at same
  rw [first.eq_of_length (by omega), second.eq_of_length (by omega)]

theorem cons (b : UInt8) (h : Shortest written taken) : Shortest (b :: written) (b :: taken) :=
  (rfl [b]).append h

end Shortest

/-! ## Lengths of integers -/

namespace Integer

theorem length_unsigned_pos (n : Nat) : 0 < (unsigned n).length := by
  rw [unsigned]
  split <;> simp

theorem length_signed_pos (n : Int) : 0 < (signed n).length := by
  rw [signed]
  split <;> simp

/-- A smaller number has no longer form. -/
theorem length_unsigned_mono {n m : Nat} (h : n ≤ m) : (unsigned n).length ≤ (unsigned m).length := by
  induction m using Nat.strongRecOn generalizing n with
  | ind m ih =>
    by_cases small : n < 128
    · rw [unsigned, if_pos small]
      exact length_unsigned_pos m
    · rw [unsigned, if_neg small, unsigned.eq_def m, if_neg (by omega)]
      exact Nat.succ_le_succ (ih (m / 128) (by omega) (Nat.div_le_div_right h))

end Integer

namespace Parser

variable {α β : Type} {p : Parser α} {bytes rest : List UInt8} {a : α} {b : β}

/-- What a parser reads can be written, and the written form is the shortest of the forms that it reads. -/
def Canonical (p : Parser α) (write : α → List UInt8) (encodable : α → Prop) : Prop :=
  ∀ bytes a rest, p bytes = .ok (a, rest) →
    ∃ taken, bytes = taken ++ rest ∧ encodable a ∧ Shortest (write a) taken

/-! ## What a parser has read -/

theorem bind_eq_ok {f : α → Parser β} :
    (p >>= f) bytes = .ok (b, rest) ↔ ∃ a mid, p bytes = .ok (a, mid) ∧ f a mid = .ok (b, rest) := by
  rw [bind_apply]
  constructor
  · intro h
    split at h
    · next a mid first => exact ⟨a, mid, first, h⟩
    · cases h
  · rintro ⟨a, mid, first, second⟩
    rw [first]
    exact second

theorem filterMap_eq_ok {f : α → Option β} {reason : Reason} :
    p.filterMap f reason bytes = .ok (b, rest) ↔ ∃ a, p bytes = .ok (a, rest) ∧ f a = some b := by
  unfold filterMap
  constructor
  · intro h
    split at h
    · next a mid first =>
      split at h
      · next found =>
        cases h
        exact ⟨a, first, found⟩
      · cases h
    · cases h
  · rintro ⟨a, first, found⟩
    rw [first]
    simp only [found]

theorem inside_eq_ok {part : Part} : p.inside part bytes = .ok (a, rest) ↔ p bytes = .ok (a, rest) := by
  unfold inside
  split
  · next first => rw [first]
  · next first => simp [first]

theorem byte_eq_ok {x : UInt8} : byte bytes = .ok (x, rest) ↔ bytes = x :: rest := by
  cases bytes with
  | nil => simp [byte]
  | cons y ys => simp [byte]

theorem take_eq_ok {n : Nat} {xs : List UInt8} (h : take n bytes = .ok (xs, rest)) :
    bytes = xs ++ rest ∧ xs.length = n := by
  unfold take at h
  dsimp only at h
  split at h
  · next long =>
    cases h
    exact ⟨(List.take_append_drop n bytes).symm, long⟩
  · cases h

theorem exactly_eq_ok {expected : List UInt8} {u : Unit} (h : exactly expected bytes = .ok (u, rest)) :
    bytes = expected ++ rest := by
  unfold exactly at h
  split at h
  · next front =>
    cases h
    exact (List.prefix_iff_eq_append.1 (List.isPrefixOf_iff_prefix.1 front)).symm
  · cases h

theorem whole_eq_ok : p.whole bytes = .ok a ↔ p bytes = .ok (a, []) := by
  unfold whole
  constructor
  · intro h
    split at h
    · next first =>
      cases h
      exact first
    · cases h
    · cases h
  · intro first
    rw [first]

theorem enclosed_eq_ok {inner : List UInt8} :
    p.enclosed inner bytes = .ok (a, rest) ↔ p inner = .ok (a, []) ∧ bytes = rest := by
  unfold enclosed
  constructor
  · intro h
    split at h
    · next first =>
      cases h
      exact ⟨whole_eq_ok.1 first, rfl⟩
    · cases h
  · rintro ⟨first, rfl⟩
    rw [whole_eq_ok.2 first]

/-! ## Parsers made of parsers -/

namespace Canonical

variable {write : α → List UInt8} {encodable : α → Prop}

theorem inside (h : p.Canonical write encodable) (part : Part) : (p.inside part).Canonical write encodable :=
  fun bytes a rest read => h bytes a rest (inside_eq_ok.1 read)

/-- A value around the one that is read, which is written like it. -/
theorem map (h : p.Canonical write encodable) (g : α → β) {write' : β → List UInt8} {encodable' : β → Prop}
    (same : ∀ a, encodable a → write' (g a) = write a) (keeps : ∀ a, encodable a → encodable' (g a)) :
    Canonical (p >>= fun a => Pure.pure (g a)) write' encodable' := by
  intro bytes b rest read
  obtain ⟨a, mid, first, second⟩ := bind_eq_ok.1 read
  cases second
  obtain ⟨taken, rfl, fine, shortest⟩ := h bytes a rest first
  refine ⟨taken, rfl, keeps a fine, ?_⟩
  rw [same a fine]
  exact shortest

/-- What is read several times is written one after the other. -/
theorem times (h : p.Canonical write encodable) (n : Nat) :
    (p.times n).Canonical (·.flatMap write) fun items => items.length = n ∧ ∀ x ∈ items, encodable x := by
  induction n with
  | zero =>
    intro bytes items rest read
    cases read
    exact ⟨[], rfl, ⟨rfl, by simp⟩, .rfl []⟩
  | succ n ih =>
    intro bytes items rest read
    obtain ⟨x, mid, first, read⟩ := bind_eq_ok.1 read
    obtain ⟨others, mid', second, read⟩ := bind_eq_ok.1 read
    cases read
    obtain ⟨taken, rfl, fine, shortest⟩ := h bytes x mid first
    obtain ⟨taken', rfl, ⟨length, each⟩, shortest'⟩ := ih mid others rest second
    refine ⟨taken ++ taken', by simp, ⟨by simp [length], ?_⟩, ?_⟩
    · rintro y (_ | ⟨_, hy⟩)
      · exact fine
      · exact each y hy
    · simp only [List.flatMap_cons]
      exact shortest.append shortest'

end Canonical

/-! ## Integers -/

/-- A byte below 128 is the last one, and one above adds seven bits to what comes later, which has to fit seven
bits less. -/
theorem canonical_unsigned (width : Nat) : (unsigned width).Canonical Integer.unsigned (· < 2 ^ width) := by
  intro bytes n rest read
  induction bytes generalizing width n with
  | nil => cases read
  | cons b bytes ih =>
    rw [unsigned] at read
    split at read
    · next last =>
      split at read
      · next fits =>
        cases read
        have small : b.toNat < 128 := UInt8.lt_iff_toNat_lt.1 last
        refine ⟨[b], rfl, by rwa [Nat.one_shiftLeft] at fits, ?_⟩
        rw [Integer.unsigned, if_pos small, UInt8.ofNat_toNat]
        exact .rfl [b]
      · cases read
    · next more =>
      split at read
      · next wide =>
        split at read
        · next m rest' later =>
          simp only [Except.ok.injEq, Prod.mk.injEq] at read
          obtain ⟨rfl, rfl⟩ := read
          obtain ⟨taken, rfl, fits, shortest⟩ := ih (width - 7) m later
          have big : 128 ≤ b.toNat := by
            rw [UInt8.lt_iff_toNat_lt] at more
            exact Nat.not_lt.1 more
          have byte := b.toNat_lt
          have room : 2 ^ width = 2 ^ (width - 7) * 128 := by
            rw [← Nat.pow_sub_mul_pow 2 (Nat.le_of_lt wide)]
          refine ⟨b :: taken, rfl, by omega, ?_⟩
          rw [Integer.unsigned]
          split
          · have := shortest.length_le
            have := Integer.length_unsigned_pos m
            exact .of_length_lt (by simp only [List.length_cons, List.length_nil]; omega)
          · have first : UInt8.ofNat ((128 * m + (b.toNat - 128)) % 128 + 128) = b := by
              rw [show (128 * m + (b.toNat - 128)) % 128 + 128 = b.toNat by omega, UInt8.ofNat_toNat]
            rw [first, show (128 * m + (b.toNat - 128)) / 128 = m by omega]
            exact shortest.cons b
        · cases read
      · cases read

/-- A last byte has two ranges, one of each sign; any other one leaves the sign to those behind it. -/
theorem canonical_signed (width : Nat) : (signed width).Canonical Integer.signed
    fun n => -2 ^ (width - 1) ≤ n ∧ n < 2 ^ (width - 1) := by
  intro bytes n rest read
  induction bytes generalizing width n with
  | nil => cases read
  | cons b bytes ih =>
    have byte := b.toNat_lt
    have power : ((2 ^ (width - 1) : Nat) : Int) = 2 ^ (width - 1) := by push_cast; rfl
    have single {n : Int} (low : -64 ≤ n) (high : n < 64) (value : (n % 128).toNat = b.toNat) :
        Shortest (Integer.signed n) [b] := by
      rw [Integer.signed, if_pos ⟨low, high⟩, value, UInt8.ofNat_toNat]
      exact .rfl [b]
    simp only [signed, UInt8.lt_iff_toNat_lt, UInt8.le_iff_toNat_le, UInt8.reduceToNat,
      Nat.one_shiftLeft] at read
    split at read
    · next positive =>
      cases read
      exact ⟨[b], rfl, by omega, single (by omega) (by omega) (by omega)⟩
    · split at read
      · next negative =>
        cases read
        exact ⟨[b], rfl, by omega, single (by omega) (by omega) (by omega)⟩
      · split at read
        · next wide =>
          split at read
          · next m rest' later =>
            cases read
            obtain ⟨taken, rfl, ⟨low, high⟩, shortest⟩ := ih (width - 7) m later
            have room : (2 : Int) ^ (width - 1) = 2 ^ (width - 7 - 1) * 128 := by
              rw [show width - 1 = (width - 7 - 1) + 7 by omega, Int.pow_add]
              rfl
            refine ⟨b :: taken, rfl, by omega, ?_⟩
            rw [Integer.signed]
            split
            · have := shortest.length_le
              have := Integer.length_signed_pos m
              exact .of_length_lt (by simp only [List.length_cons, List.length_nil]; omega)
            · have first : UInt8.ofNat (((128 * m + ((b.toNat : Int) - 128)) % 128).toNat + 128) = b := by
                rw [show ((128 * m + ((b.toNat : Int) - 128)) % 128).toNat + 128 = b.toNat by omega,
                  UInt8.ofNat_toNat]
              rw [first, show (128 * m + ((b.toNat : Int) - 128)) / 128 = m by omega]
              exact shortest.cons b
          · cases read
        · cases read

theorem canonical_word : word.Canonical Encode.word fun _ => True :=
  (canonical_unsigned 16).map UInt16.ofNat
    (fun n fits => by rw [Encode.word, UInt16.toNat_ofNat_of_lt' fits]) fun _ _ => trivial

theorem canonical_label : label.Canonical Encode.label fun _ => True :=
  (canonical_unsigned 32).map UInt32.ofNat
    (fun n fits => by rw [Encode.label, UInt32.toNat_ofNat_of_lt' fits]) fun _ _ => trivial

theorem canonical_count : count.Canonical (fun n => Encode.count n.toNat) fun _ => True :=
  (canonical_unsigned 32).map UInt32.ofNat
    (fun n fits => by
      have small : n < 4294967296 := fits
      rw [UInt32.toNat_ofNat_of_lt' fits, Encode.count, Nat.mod_eq_of_lt small])
    fun _ _ => trivial

theorem canonical_short : short.Canonical (fun n => Integer.signed n.toInt) fun _ => True :=
  (canonical_signed 16).map Int16.ofInt
    (fun n fits => by rw [Int16.toInt_ofInt_of_le fits.1 fits.2]) fun _ _ => trivial

theorem canonical_int : int.Canonical (fun n => Integer.signed n.toInt) fun _ => True :=
  (canonical_signed 32).map Int32.ofInt
    (fun n fits => by rw [Int32.toInt_ofInt_of_le fits.1 fits.2]) fun _ _ => trivial

theorem canonical_long : long.Canonical (fun n => Integer.signed n.toInt) fun _ => True :=
  (canonical_signed 64).map Int64.ofInt
    (fun n fits => by rw [Int64.toInt_ofInt_of_le fits.1 fits.2]) fun _ _ => trivial

/-! ## Lists, texts and bits -/

theorem canonical_byte : byte.Canonical ([·]) fun _ => True := by
  intro bytes b rest read
  obtain rfl := byte_eq_ok.1 read
  exact ⟨[b], rfl, trivial, .rfl [b]⟩

theorem canonical_vec {write : α → List UInt8} {encodable : α → Prop} (h : p.Canonical write encodable) :
    (vec p).Canonical (Encode.vec write) fun items => items.length < 2 ^ 32 ∧ ∀ x ∈ items, encodable x := by
  intro bytes items rest read
  obtain ⟨n, mid, counted, listed⟩ := bind_eq_ok.1 read
  obtain ⟨taken, rfl, -, shortest⟩ := canonical_count bytes n mid counted
  obtain ⟨taken', rfl, ⟨length, each⟩, shortest'⟩ := h.times n.toNat mid items rest listed
  refine ⟨taken ++ taken', by simp, ⟨length ▸ n.toNat_lt, each⟩, ?_⟩
  rw [Encode.vec, length]
  exact shortest.append shortest'

/-- A part behind the number of its bytes: if the part shrinks, the number may shrink with it.  Bytes as few as
that leave the part, and with it the number, as they were. -/
theorem canonical_sized {size : UInt32} {taken written body : List UInt8}
    (shortest : Shortest (Encode.count size.toNat) taken) (length : body.length = size.toNat)
    (part : Shortest written body) :
    written.length < 2 ^ 32 ∧ Shortest (Encode.count written.length ++ written) (taken ++ body) := by
  have fits : written.length ≤ size.toNat := length ▸ part.length_le
  have size_lt : size.toNat < 4294967296 := size.toNat_lt
  refine ⟨by omega, ?_⟩
  have shrinks : (Encode.count written.length).length ≤ (Encode.count size.toNat).length := by
    rw [Encode.count, Encode.count, Nat.mod_eq_of_lt size_lt, Nat.mod_eq_of_lt (by omega)]
    exact Integer.length_unsigned_mono fits
  have le₁ := shortest.length_le
  have le₂ := part.length_le
  refine ⟨by simp only [List.length_append]; omega, fun same => ?_⟩
  simp only [List.length_append] at same
  have kept := part.eq_of_length (by omega)
  subst kept
  rw [length, shortest.eq_of_length (by omega)]

theorem text?_eq_some {bytes : List UInt8} {s : String} (h : text? bytes = some s) :
    s.toUTF8.data.toList = bytes := by
  unfold text? String.fromUTF8? at h
  split at h
  · cases h
    simp [String.fromUTF8]
  · cases h

theorem canonical_name : name.Canonical Encode.name Short := by
  intro bytes s rest read
  obtain ⟨text, sized, found⟩ := filterMap_eq_ok.1 read
  obtain ⟨size, mid, counted, cut⟩ := bind_eq_ok.1 sized
  obtain ⟨taken, rfl, -, shortest⟩ := canonical_count bytes size mid counted
  obtain ⟨rfl, length⟩ := take_eq_ok cut
  have same := text?_eq_some found
  have size_eq : s.utf8ByteSize = size.toNat := by
    rw [← length, ← same]
    simp
  refine ⟨taken ++ text, by simp, ?_, ?_⟩
  · rw [Short, size_eq]
    exact size.toNat_lt
  · rw [Encode.name, same, length]
    exact shortest.append (.rfl text)

/-- An optional name begins with a flag, and only the bytes 0 and 1 are flags. -/
theorem canonical_optName : optName.Canonical Encode.optName fun s => ∀ t ∈ s, Short t := by
  intro bytes s rest read
  obtain ⟨there, mid, flagged, read⟩ := bind_eq_ok.1 read
  obtain ⟨b, first, found⟩ := filterMap_eq_ok.1 flagged
  obtain rfl := byte_eq_ok.1 first
  cases there with
  | false =>
    cases read
    obtain rfl : b = 0x00 := by
      by_cases zero : b = 0x00
      · exact zero
      · simp [zero] at found
    exact ⟨[0x00], rfl, by simp, .rfl _⟩
  | true =>
    obtain ⟨t, mid', named, read⟩ := bind_eq_ok.1 read
    cases read
    obtain rfl : b = 0x01 := by
      by_cases one : b = 0x01
      · exact one
      · simp [one] at found
    obtain ⟨taken, rfl, short, shortest⟩ := canonical_name mid t rest named
    exact ⟨0x01 :: taken, rfl, by simpa using short, shortest.cons 0x01⟩

theorem bits32_littleEndian {bytes : List UInt8} (h : bytes.length = 4) :
    Encode.bits32 (UInt32.ofNat (littleEndian bytes)) = bytes := by
  match bytes, h with
  | [a, b, c, d], _ =>
    have := a.toNat_lt
    have := b.toNat_lt
    have := c.toNat_lt
    have := d.toNat_lt
    simp [Encode.bits32, littleEndian, ← UInt8.toNat_inj, UInt32.toNat_shiftRight, Nat.shiftRight_eq_div_pow]
    omega

theorem canonical_bits32 : bits32.Canonical Encode.bits32 fun _ => True := by
  intro bytes n rest read
  obtain ⟨xs, mid, taken, read⟩ := bind_eq_ok.1 read
  cases read
  obtain ⟨rfl, length⟩ := take_eq_ok taken
  refine ⟨xs, rfl, trivial, ?_⟩
  rw [bits32_littleEndian length]
  exact .rfl xs

theorem bits64_littleEndian {bytes : List UInt8} (h : bytes.length = 8) :
    Encode.bits64 (UInt64.ofNat (littleEndian bytes)) = bytes := by
  match bytes, h with
  | [a, b, c, d, e, f, g, i], _ =>
    have := a.toNat_lt
    have := b.toNat_lt
    have := c.toNat_lt
    have := d.toNat_lt
    have := e.toNat_lt
    have := f.toNat_lt
    have := g.toNat_lt
    have := i.toNat_lt
    simp [Encode.bits64, Encode.bits32, littleEndian, ← UInt8.toNat_inj, UInt32.toNat_shiftRight,
      UInt64.toNat_shiftRight, Nat.shiftRight_eq_div_pow]
    omega

theorem canonical_bits64 : bits64.Canonical Encode.bits64 fun _ => True := by
  intro bytes n rest read
  obtain ⟨xs, mid, taken, read⟩ := bind_eq_ok.1 read
  cases read
  obtain ⟨rfl, length⟩ := take_eq_ok taken
  refine ⟨xs, rfl, trivial, ?_⟩
  rw [bits64_littleEndian length]
  exact .rfl xs

/-! ## Parts of instructions -/

theorem canonical_member : member.Canonical Encode.member MemberRef.Encodable := by
  intro bytes m rest read
  obtain ⟨owner, mid, first, read⟩ := bind_eq_ok.1 read
  obtain ⟨n, mid', second, read⟩ := bind_eq_ok.1 read
  obtain ⟨descriptor, mid'', third, read⟩ := bind_eq_ok.1 read
  cases read
  obtain ⟨taken, rfl, short, shortest⟩ := canonical_name _ _ _ first
  obtain ⟨taken', rfl, short', shortest'⟩ := canonical_name _ _ _ second
  obtain ⟨taken'', rfl, short'', shortest''⟩ := canonical_name _ _ _ third
  exact ⟨taken ++ taken' ++ taken'', by simp, ⟨short, short', short''⟩,
    (shortest.append shortest').append shortest''⟩

/-- What a parser reads behind a byte can be written, and the written form is the shortest of the forms
that begin with the byte. -/
def CanonicalBehind (tag : UInt8) (p : Parser α) (write : α → List UInt8) (encodable : α → Prop) : Prop :=
  ∀ bytes a rest, p bytes = .ok (a, rest) →
    ∃ taken, bytes = taken ++ rest ∧ encodable a ∧ Shortest (write a) (tag :: taken)

section

variable {tag : UInt8} {write : α → List UInt8} {encodable : α → Prop}

theorem canonicalBehind_pure (same : write a = [tag]) (fine : encodable a) :
    CanonicalBehind tag (Pure.pure a) write encodable := by
  intro bytes a rest read
  cases read
  refine ⟨[], rfl, fine, ?_⟩
  rw [same]
  exact .rfl [tag]

/-- A value around an operand, of which the written form is the byte and the operand, or shorter. -/
theorem Canonical.behind {q : Parser β} {body : β → List UInt8} {sound : β → Prop} (h : q.Canonical body sound)
    (g : β → α) (shorter : ∀ x, sound x → Shortest (write (g x)) (tag :: body x))
    (keeps : ∀ x, sound x → encodable (g x)) :
    CanonicalBehind tag (q >>= fun x => Pure.pure (g x)) write encodable := by
  intro bytes a rest read
  obtain ⟨x, mid, first, second⟩ := bind_eq_ok.1 read
  cases second
  obtain ⟨taken, rfl, fine, shortest⟩ := h bytes x rest first
  exact ⟨taken, rfl, keeps x fine, (shorter x fine).trans (shortest.cons tag)⟩

/-- A choice by the first byte. -/
theorem canonical_tagged {choose : UInt8 → Option (Parser α)} {reason : Reason}
    (each : ∀ b p, choose b = some p → CanonicalBehind b p write encodable) :
    Canonical (Parser.filterMap byte choose reason >>= fun p => p) write encodable := by
  intro bytes a rest read
  obtain ⟨p, mid, chosen, followed⟩ := bind_eq_ok.1 read
  obtain ⟨b, first, found⟩ := filterMap_eq_ok.1 chosen
  obtain rfl := byte_eq_ok.1 first
  obtain ⟨taken, rfl, fine, shortest⟩ := each b p found mid a rest followed
  exact ⟨b :: taken, rfl, fine, shortest⟩

end

theorem CanonicalBehind.inside {tag : UInt8} {write : α → List UInt8} {encodable : α → Prop}
    (h : CanonicalBehind tag p write encodable) (part : Part) :
    CanonicalBehind tag (p.inside part) write encodable :=
  fun bytes a rest read => h bytes a rest (inside_eq_ok.1 read)

theorem canonical_constant : constant.Canonical Encode.constant Constant.Encodable := by
  refine canonical_tagged fun b p chosen => ?_
  unfold constantOfTag? at chosen
  split_ifs at chosen with int float long double string classRef <;> cases chosen
  · subst int
    exact canonical_int.behind Constant.int (fun _ _ => .rfl _) fun _ _ => trivial
  · subst float
    exact canonical_bits32.behind Constant.float (fun _ _ => .rfl _) fun _ _ => trivial
  · subst long
    exact canonical_long.behind Constant.long (fun _ _ => .rfl _) fun _ _ => trivial
  · subst double
    exact canonical_bits64.behind Constant.double (fun _ _ => .rfl _) fun _ _ => trivial
  · subst string
    exact canonical_name.behind Constant.string (fun _ _ => .rfl _) fun _ short => short
  · subst classRef
    exact canonical_name.behind Constant.classRef (fun _ _ => .rfl _) fun _ short => short

theorem canonical_tableSwitch :
    CanonicalBehind Opcode.tableSwitch tableSwitch Encode.instr Instr.Encodable := by
  intro bytes i rest read
  obtain ⟨⟨low, high, default, targets⟩, parts, found⟩ := filterMap_eq_ok.1 read
  obtain ⟨low, mid₁, first, parts⟩ := bind_eq_ok.1 parts
  obtain ⟨high, mid₂, second, parts⟩ := bind_eq_ok.1 parts
  obtain ⟨default, mid₃, third, parts⟩ := bind_eq_ok.1 parts
  obtain ⟨targets, mid₄, fourth, parts⟩ := bind_eq_ok.1 parts
  cases parts
  dsimp only at found
  split_ifs at found with range
  cases found
  obtain ⟨taken₁, rfl, -, shortest₁⟩ := canonical_int _ _ _ first
  obtain ⟨taken₂, rfl, -, shortest₂⟩ := canonical_int _ _ _ second
  obtain ⟨taken₃, rfl, -, shortest₃⟩ := canonical_label _ _ _ third
  obtain ⟨taken₄, rfl, ⟨few, -⟩, shortest₄⟩ := canonical_vec canonical_label _ _ _ fourth
  exact ⟨taken₁ ++ taken₂ ++ taken₃ ++ taken₄, by simp, ⟨few, range⟩,
    (((shortest₁.append shortest₂).append shortest₃).append shortest₄).cons Opcode.tableSwitch⟩

theorem canonical_lookupSwitch :
    CanonicalBehind Opcode.lookupSwitch lookupSwitch Encode.instr Instr.Encodable := by
  intro bytes i rest read
  have pair : Canonical (do
      let key ← int
      let target ← label
      return (key, target)) (fun p => Integer.signed p.1.toInt ++ Encode.label p.2) fun _ => True := by
    intro bytes p rest read
    obtain ⟨key, mid, first, read⟩ := bind_eq_ok.1 read
    obtain ⟨target, mid', second, read⟩ := bind_eq_ok.1 read
    cases read
    obtain ⟨taken, rfl, -, shortest⟩ := canonical_int _ _ _ first
    obtain ⟨taken', rfl, -, shortest'⟩ := canonical_label _ _ _ second
    exact ⟨taken ++ taken', by simp, trivial, shortest.append shortest'⟩
  obtain ⟨default, mid, first, read⟩ := bind_eq_ok.1 read
  obtain ⟨pairs, mid', second, read⟩ := bind_eq_ok.1 read
  cases read
  obtain ⟨taken, rfl, -, shortest⟩ := canonical_label _ _ _ first
  obtain ⟨taken', rfl, ⟨few, -⟩, shortest'⟩ := canonical_vec pair _ _ _ second
  exact ⟨taken ++ taken', by simp, few, (shortest.append shortest').cons Opcode.lookupSwitch⟩

theorem canonical_iinc : CanonicalBehind Opcode.iinc (do
    let s ← word
    return Instr.iinc s (← short)) Encode.instr Instr.Encodable := by
  intro bytes i rest read
  obtain ⟨slot, mid, first, read⟩ := bind_eq_ok.1 read
  obtain ⟨amount, mid', second, read⟩ := bind_eq_ok.1 read
  cases read
  obtain ⟨taken, rfl, -, shortest⟩ := canonical_word _ _ _ first
  obtain ⟨taken', rfl, -, shortest'⟩ := canonical_short _ _ _ second
  exact ⟨taken ++ taken', by simp, trivial, (shortest.append shortest').cons Opcode.iinc⟩

theorem canonical_newArray : CanonicalBehind Opcode.newArray
    (filterMap byte (fun c => (PrimArray.ofCode? c).map Instr.newArray) .invalidTag)
    Encode.instr Instr.Encodable := by
  intro bytes i rest read
  obtain ⟨c, first, found⟩ := filterMap_eq_ok.1 read
  obtain ⟨k, known, rfl⟩ := Option.map_eq_some_iff.1 found
  obtain rfl := byte_eq_ok.1 first
  refine ⟨[c], rfl, trivial, ?_⟩
  rw [Encode.instr, PrimArray.code_of_ofCode? known]
  exact .rfl _

theorem canonical_multiNewArray : CanonicalBehind Opcode.multiNewArray (do
    let descriptor ← name
    return Instr.multiNewArray descriptor (← byte)) Encode.instr Instr.Encodable := by
  intro bytes i rest read
  obtain ⟨descriptor, mid, first, read⟩ := bind_eq_ok.1 read
  obtain ⟨dims, mid', second, read⟩ := bind_eq_ok.1 read
  cases read
  obtain ⟨taken, rfl, short, shortest⟩ := canonical_name _ _ _ first
  obtain rfl := byte_eq_ok.1 second
  exact ⟨taken ++ [dims], by simp, short, (shortest.append (.rfl [dims])).cons Opcode.multiNewArray⟩

theorem canonical_invokeDynamic : CanonicalBehind Opcode.invokeDynamic (do
    let n ← name
    return Instr.invokeDynamic n (← name)) Encode.instr Instr.Encodable := by
  intro bytes i rest read
  obtain ⟨n, mid, first, read⟩ := bind_eq_ok.1 read
  obtain ⟨descriptor, mid', second, read⟩ := bind_eq_ok.1 read
  cases read
  obtain ⟨taken, rfl, short, shortest⟩ := canonical_name _ _ _ first
  obtain ⟨taken', rfl, short', shortest'⟩ := canonical_name _ _ _ second
  exact ⟨taken ++ taken', by simp, ⟨short, short'⟩, (shortest.append shortest').cons Opcode.invokeDynamic⟩

/-! ## Instructions -/

/-- A member of a family that a table lists has the byte for its opcode. -/
theorem canonical_tabled {b : UInt8} {p : Parser Instr} (h : tabled? b = some p) :
    CanonicalBehind b p Encode.instr Instr.Encodable := by
  unfold tabled? at h
  split at h
  · next op found =>
    cases h
    obtain rfl : op.opcode = b := by simpa using List.find?_some found
    exact canonicalBehind_pure rfl trivial
  split at h
  · next op found =>
    cases h
    obtain rfl : op.opcode = b := by simpa using List.find?_some found
    exact canonical_word.behind (Instr.slot op) (fun _ _ => .rfl _) fun _ _ => trivial
  split at h
  · next op found =>
    cases h
    obtain rfl : op.opcode = b := by simpa using List.find?_some found
    exact canonical_label.behind (Instr.jump op) (fun _ _ => .rfl _) fun _ _ => trivial
  split at h
  · next op found =>
    cases h
    obtain rfl : op.opcode = b := by simpa using List.find?_some found
    exact canonical_member.behind (Instr.field op) (fun _ _ => .rfl _) fun _ fine => fine
  split at h
  · next kind found =>
    cases h
    obtain rfl : kind.opcode = b := by simpa using List.find?_some found
    exact canonical_member.behind (Instr.invoke kind) (fun _ _ => .rfl _) fun _ fine => fine
  split at h
  · next op found =>
    cases h
    obtain rfl : op.opcode = b := by simpa using List.find?_some found
    exact canonical_name.behind (Instr.typed op) (fun _ _ => .rfl _) fun _ short => short
  · cases h

/-- A constant in full width is no shorter than one with an opcode of its own. -/
theorem shortest_wide {written body : List UInt8} {wide : UInt8} (own : written.length = 1) (some : 0 < body.length) :
    Shortest written (wide :: body) :=
  .of_length_lt (by simp only [List.length_cons]; omega)

theorem shortest_iconst (v : Int32) :
    Shortest (Encode.instr (.iconst v)) (Opcode.iconstWide :: Integer.signed v.toInt) := by
  rw [Encode.instr]
  split_ifs
  · exact shortest_wide rfl (Integer.length_signed_pos _)
  · exact .rfl _

theorem shortest_lconst (v : Int64) :
    Shortest (Encode.instr (.lconst v)) (Opcode.lconstWide :: Integer.signed v.toInt) := by
  rw [Encode.instr]
  split_ifs
  · exact shortest_wide rfl (Integer.length_signed_pos _)
  · exact shortest_wide rfl (Integer.length_signed_pos _)
  · exact .rfl _

theorem shortest_fconst (bits : UInt32) :
    Shortest (Encode.instr (.fconst bits)) (Opcode.fconstWide :: Encode.bits32 bits) := by
  rw [Encode.instr]
  split_ifs
  · exact shortest_wide rfl (by simp [Encode.bits32])
  · exact shortest_wide rfl (by simp [Encode.bits32])
  · exact shortest_wide rfl (by simp [Encode.bits32])
  · exact .rfl _

theorem shortest_dconst (bits : UInt64) :
    Shortest (Encode.instr (.dconst bits)) (Opcode.dconstWide :: Encode.bits64 bits) := by
  rw [Encode.instr]
  split_ifs
  · exact shortest_wide rfl (by simp [Encode.bits64, Encode.bits32])
  · exact shortest_wide rfl (by simp [Encode.bits64, Encode.bits32])
  · exact .rfl _

/-- The opcodes of the ints from -1 to 5 are written for these ints. -/
theorem instr_iconst {b : UInt8} (low : 0x02 ≤ b) (high : b ≤ 0x08) :
    Encode.instr (.iconst (Int32.ofInt ((b.toNat : Int) - Opcode.iconst0.toNat))) = [b] := by
  have few : b = 2 ∨ b = 3 ∨ b = 4 ∨ b = 5 ∨ b = 6 ∨ b = 7 ∨ b = 8 := by
    simp only [UInt8.le_iff_toNat_le, UInt8.reduceToNat, ← UInt8.toNat_inj] at low high ⊢
    omega
  rcases few with rfl | rfl | rfl | rfl | rfl | rfl | rfl <;> decide

theorem eq_of_ite_eq_some {c : Prop} [Decidable c] {x y : α} {other : Option α}
    (h : (if c then some x else other) = some y) : c ∧ x = y ∨ other = some y := by
  split at h
  · next holds => exact .inl ⟨holds, Option.some.inj h⟩
  · exact .inr h

/-- The opcodes that no table lists, each with operands of its own. -/
theorem canonical_untabled {b : UInt8} {p : Parser Instr} (h : untabled? b = some p) :
    CanonicalBehind b p Encode.instr Instr.Encodable := by
  unfold untabled? at h
  rcases eq_of_ite_eq_some h with ⟨few, rfl⟩ | h
  · exact canonicalBehind_pure (instr_iconst few.1 few.2) trivial
  rcases eq_of_ite_eq_some h with ⟨rfl, rfl⟩ | h
  · exact canonical_int.behind Instr.iconst (fun v _ => shortest_iconst v) fun _ _ => trivial
  rcases eq_of_ite_eq_some h with ⟨rfl, rfl⟩ | h
  · exact canonicalBehind_pure rfl trivial
  rcases eq_of_ite_eq_some h with ⟨rfl, rfl⟩ | h
  · exact canonicalBehind_pure rfl trivial
  rcases eq_of_ite_eq_some h with ⟨rfl, rfl⟩ | h
  · exact canonical_long.behind Instr.lconst (fun v _ => shortest_lconst v) fun _ _ => trivial
  rcases eq_of_ite_eq_some h with ⟨rfl, rfl⟩ | h
  · exact canonicalBehind_pure rfl trivial
  rcases eq_of_ite_eq_some h with ⟨rfl, rfl⟩ | h
  · exact canonicalBehind_pure rfl trivial
  rcases eq_of_ite_eq_some h with ⟨rfl, rfl⟩ | h
  · exact canonicalBehind_pure rfl trivial
  rcases eq_of_ite_eq_some h with ⟨rfl, rfl⟩ | h
  · exact canonical_bits32.behind Instr.fconst (fun v _ => shortest_fconst v) fun _ _ => trivial
  rcases eq_of_ite_eq_some h with ⟨rfl, rfl⟩ | h
  · exact canonicalBehind_pure rfl trivial
  rcases eq_of_ite_eq_some h with ⟨rfl, rfl⟩ | h
  · exact canonicalBehind_pure rfl trivial
  rcases eq_of_ite_eq_some h with ⟨rfl, rfl⟩ | h
  · exact canonical_bits64.behind Instr.dconst (fun v _ => shortest_dconst v) fun _ _ => trivial
  rcases eq_of_ite_eq_some h with ⟨rfl, rfl⟩ | h
  · exact canonical_byte.behind (fun b => Instr.bipush b.toInt8) (fun _ _ => .rfl _) fun _ _ => trivial
  rcases eq_of_ite_eq_some h with ⟨rfl, rfl⟩ | h
  · exact canonical_short.behind Instr.sipush (fun _ _ => .rfl _) fun _ _ => trivial
  rcases eq_of_ite_eq_some h with ⟨rfl, rfl⟩ | h
  · exact (canonical_constant.inside .constant).behind Instr.ldc (fun _ _ => .rfl _) fun _ fine => fine
  rcases eq_of_ite_eq_some h with ⟨rfl, rfl⟩ | h
  · exact canonical_iinc
  rcases eq_of_ite_eq_some h with ⟨rfl, rfl⟩ | h
  · exact canonical_newArray
  rcases eq_of_ite_eq_some h with ⟨rfl, rfl⟩ | h
  · exact canonical_multiNewArray
  rcases eq_of_ite_eq_some h with ⟨rfl, rfl⟩ | h
  · exact canonical_tableSwitch.inside .tableSwitch
  rcases eq_of_ite_eq_some h with ⟨rfl, rfl⟩ | h
  · exact canonical_lookupSwitch.inside .lookupSwitch
  rcases eq_of_ite_eq_some h with ⟨rfl, rfl⟩ | h
  · exact canonical_invokeDynamic
  rcases eq_of_ite_eq_some h with ⟨rfl, rfl⟩ | h
  · exact canonical_label.behind Instr.label (fun _ _ => .rfl _) fun _ _ => trivial
  cases h

/-- Every instruction is written in its shortest form. -/
theorem canonical_instr : instr.Canonical Encode.instr Instr.Encodable := by
  refine canonical_tagged fun b p chosen => ?_
  rcases Option.or_eq_some_iff.1 chosen with tabled | ⟨-, untabled⟩
  · exact canonical_tabled tabled
  · exact canonical_untabled untabled

/-! ## Methods and classes -/

theorem canonical_region :
    region.Canonical Encode.region fun r => ∀ name ∈ r.catchType, Short name := by
  intro bytes r rest read
  obtain ⟨start, mid₁, first, read⟩ := bind_eq_ok.1 read
  obtain ⟨stop, mid₂, second, read⟩ := bind_eq_ok.1 read
  obtain ⟨handler, mid₃, third, read⟩ := bind_eq_ok.1 read
  obtain ⟨catchType, mid₄, fourth, read⟩ := bind_eq_ok.1 read
  cases read
  obtain ⟨taken₁, rfl, -, shortest₁⟩ := canonical_label _ _ _ first
  obtain ⟨taken₂, rfl, -, shortest₂⟩ := canonical_label _ _ _ second
  obtain ⟨taken₃, rfl, -, shortest₃⟩ := canonical_label _ _ _ third
  obtain ⟨taken₄, rfl, short, shortest₄⟩ := canonical_optName _ _ _ fourth
  exact ⟨taken₁ ++ taken₂ ++ taken₃ ++ taken₄, by simp, short,
    ((shortest₁.append shortest₂).append shortest₃).append shortest₄⟩

theorem canonical_code : code.Canonical Encode.code Code.Encodable := by
  intro bytes c rest read
  obtain ⟨instrs, mid, first, read⟩ := bind_eq_ok.1 read
  obtain ⟨regions, mid', second, read⟩ := bind_eq_ok.1 read
  cases read
  obtain ⟨taken, rfl, ⟨few, each⟩, shortest⟩ :=
    canonical_vec (canonical_instr.inside .instruction) _ _ _ first
  obtain ⟨taken', rfl, ⟨few', caught⟩, shortest'⟩ := canonical_vec (canonical_region.inside .region) _ _ _ second
  exact ⟨taken ++ taken', by simp, ⟨few, each, few', caught⟩, shortest.append shortest'⟩

/-- Each part took the shortest bytes, and so they did together; the length in front of the code is written as
what is left of it. -/
theorem canonical_method : method.Canonical Encode.method Method.Encodable := by
  intro bytes m rest read
  obtain ⟨access, mid₁, first, read⟩ := bind_eq_ok.1 read
  obtain ⟨n, mid₂, second, read⟩ := bind_eq_ok.1 read
  obtain ⟨descriptor, mid₃, third, read⟩ := bind_eq_ok.1 read
  obtain ⟨maxLocals, mid₄, fourth, read⟩ := bind_eq_ok.1 read
  obtain ⟨size, mid₅, fifth, read⟩ := bind_eq_ok.1 read
  obtain ⟨body, mid₆, sixth, read⟩ := bind_eq_ok.1 read
  obtain ⟨c, mid₇, seventh, read⟩ := bind_eq_ok.1 read
  cases read
  obtain ⟨taken₁, rfl, -, shortest₁⟩ := canonical_word _ _ _ first
  obtain ⟨taken₂, rfl, short, shortest₂⟩ := canonical_name.inside .methodName _ _ _ second
  obtain ⟨taken₃, rfl, short', shortest₃⟩ := canonical_name.inside .methodDescriptor _ _ _ third
  obtain ⟨taken₄, rfl, -, shortest₄⟩ := canonical_word _ _ _ fourth
  obtain ⟨taken₅, rfl, -, shortest₅⟩ := canonical_count _ _ _ fifth
  obtain ⟨rfl, length⟩ := take_eq_ok (inside_eq_ok.1 sixth)
  obtain ⟨whole, rfl⟩ := enclosed_eq_ok.1 seventh
  obtain ⟨taken, rfl, fine, shortest⟩ := canonical_code _ _ _ whole
  rw [List.append_nil] at length ⊢
  obtain ⟨fits, sized⟩ := canonical_sized shortest₅ length shortest
  refine ⟨taken₁ ++ taken₂ ++ taken₃ ++ taken₄ ++ (taken₅ ++ taken), by simp, ⟨short, short', fits, fine⟩, ?_⟩
  rw [Encode.method, List.append_assoc]
  exact (((shortest₁.append shortest₂).append shortest₃).append shortest₄).append sized

theorem canonical_container : container.Canonical encodeClass Class.Encodable := by
  intro bytes c rest read
  obtain ⟨_, mid₁, first, read⟩ := bind_eq_ok.1 read
  obtain ⟨_, mid₂, second, read⟩ := bind_eq_ok.1 read
  obtain ⟨access, mid₃, third, read⟩ := bind_eq_ok.1 read
  obtain ⟨n, mid₄, fourth, read⟩ := bind_eq_ok.1 read
  obtain ⟨superName, mid₅, fifth, read⟩ := bind_eq_ok.1 read
  obtain ⟨interfaces, mid₆, sixth, read⟩ := bind_eq_ok.1 read
  obtain ⟨methods, mid₇, seventh, read⟩ := bind_eq_ok.1 read
  cases read
  obtain rfl := exactly_eq_ok (inside_eq_ok.1 first)
  obtain rfl := exactly_eq_ok (inside_eq_ok.1 second)
  obtain ⟨taken₃, rfl, -, shortest₃⟩ := canonical_word _ _ _ third
  obtain ⟨taken₄, rfl, short, shortest₄⟩ := canonical_name.inside .className _ _ _ fourth
  obtain ⟨taken₅, rfl, shortSuper, shortest₅⟩ := canonical_optName _ _ _ fifth
  obtain ⟨taken₆, rfl, ⟨few, shorts⟩, shortest₆⟩ := canonical_vec canonical_name _ _ _ sixth
  obtain ⟨taken₇, rfl, ⟨few', each⟩, shortest₇⟩ :=
    canonical_vec (canonical_method.inside .method) _ _ _ seventh
  refine ⟨Encode.magic ++ Encode.version ++ taken₃ ++ taken₄ ++ taken₅ ++ taken₆ ++ taken₇, by simp,
    ⟨short, shortSuper, few, shorts, few', each⟩, ?_⟩
  exact (((((Shortest.rfl (Encode.magic ++ Encode.version)).append shortest₃).append shortest₄).append
    shortest₅).append shortest₆).append shortest₇

end Parser

/-- The canonical form of a class is read as the class again, and is the one shortest form of it: bytes that
are read as the class are no fewer, and as few only if they are the canonical form. -/
theorem encodeClass_shortest (bytes : List UInt8) (c : Class) (decoded : decodeClass bytes = .ok c) :
    decodeClass (encodeClass c) = .ok c ∧ (encodeClass c).length ≤ bytes.length ∧
      ((encodeClass c).length = bytes.length → encodeClass c = bytes) := by
  unfold decodeClass at decoded
  split at decoded
  · next whole =>
    cases decoded
    obtain ⟨taken, rfl, fine, shortest⟩ := Parser.canonical_container _ _ _ (Parser.whole_eq_ok.1 whole)
    rw [List.append_nil]
    refine ⟨?_, shortest.length_le, shortest.eq_of_length⟩
    rw [decodeClass, (Parser.reads_container fine).whole]
  · cases decoded

/-- A class with one method, which does nothing. -/
def idleClass : Class where
  access := 1
  name := "A"
  superName := none
  interfaces := []
  methods := [⟨9, "m", "()V", 0, ⟨[.iconst 0, .plain (.leave none)], []⟩⟩]

/-- The same class with its access flags padded to two bytes, and with the constant in full width and
padded, which the size of the body counts. -/
def paddedIdleClass : List UInt8 :=
  Encode.magic ++ Encode.version ++
    [0x81, 0x00, 0x01, 0x41, 0x00, 0x00, 0x01, 0x09, 0x01, 0x6D, 0x03, 0x28, 0x29, 0x56, 0x00,
      0x06, 0x02, 0xCB, 0x80, 0x00, 0xB1, 0x00]

theorem paddedIdleClass_shortened :
    decodeClass paddedIdleClass = .ok idleClass ∧ decodeClass (encodeClass idleClass) = .ok idleClass ∧
      (encodeClass idleClass).length < paddedIdleClass.length := by
  have decoded : decodeClass paddedIdleClass = .ok idleClass := eq_ok_of_toOption (by decide +kernel)
  obtain ⟨again, le, same⟩ := encodeClass_shortest paddedIdleClass idleClass decoded
  have differ : encodeClass idleClass ≠ paddedIdleClass := by decide +kernel
  exact ⟨decoded, again, Nat.lt_of_le_of_ne le fun e => differ (same e)⟩

end Suspension.Container
