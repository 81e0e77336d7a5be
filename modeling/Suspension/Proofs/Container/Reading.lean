import Mathlib.Algebra.Group.Int.Defs
import Mathlib.Algebra.Group.Nat.Defs
import Suspension.Container.Decode

/-!
# Reading back what was written

A parser reads some bytes as a value if it takes them off the front of every input that begins with
them, whatever follows, and yields that value.  Parsers that read their parts read the parts one after
the other.

## Main definitions
* `Parser.Reads`: a parser reads some bytes as a value.

## Main results
* `Parser.Reads.bind`, `Parser.Reads.map`, `Parser.reads_vec`: sequences and lists.
* `Parser.reads_unsigned`, `Parser.reads_signed`: integers, in every width that has room for them.
* `Parser.reads_name`: texts.
-/

namespace Suspension.Container

namespace Parser

variable {α β : Type} {p : Parser α} {f : α → Parser β} {xs ys bytes : List UInt8} {a : α} {b : β}

/-- A parser takes the bytes off the front of every input and yields the value. -/
def Reads (p : Parser α) (bytes : List UInt8) (a : α) : Prop :=
  ∀ rest, p (bytes ++ rest) = .ok (a, rest)

/-! ## Parsers made of parsers -/

theorem bind_apply (p : Parser α) (f : α → Parser β) (bytes : List UInt8) :
    (p >>= f) bytes = match p bytes with
      | .ok (a, rest) => f a rest
      | .error e => .error e := rfl

theorem reads_pure (a : α) : Reads (Pure.pure a) [] a := fun _ => rfl

theorem Reads.bind (first : p.Reads xs a) (second : (f a).Reads ys b) : (p >>= f).Reads (xs ++ ys) b := by
  intro rest
  rw [bind_apply, List.append_assoc, first]
  exact second rest

theorem Reads.map (h : p.Reads xs a) (g : α → β) :
    Reads (p >>= fun a => Pure.pure (g a)) xs (g a) := by
  simpa using h.bind (f := fun a => Pure.pure (g a)) (reads_pure (g a))

theorem Reads.filterMap (h : p.Reads xs a) {g : α → Option β} (found : g a = some b) (reason : Reason) :
    (p.filterMap g reason).Reads xs b := by
  intro rest
  rw [Parser.filterMap, h]
  simp only [found]

theorem Reads.inside (h : p.Reads xs a) (part : Part) : (p.inside part).Reads xs a := by
  intro rest
  rw [Parser.inside, h]

theorem Reads.whole (h : p.Reads xs a) : p.whole xs = .ok a := by
  have := h []
  rw [List.append_nil] at this
  rw [Parser.whole, this]

theorem Reads.enclosed (h : p.Reads xs a) : (p.enclosed xs).Reads [] a := by
  intro rest
  rw [Parser.enclosed, h.whole]
  rfl

theorem reads_byte (b : UInt8) : byte.Reads [b] b := fun _ => rfl

theorem reads_take (bytes : List UInt8) : (take bytes.length).Reads bytes bytes := by
  intro rest
  simp [take]

theorem reads_exactly (bytes : List UInt8) : (exactly bytes).Reads bytes () := by
  intro rest
  have front : bytes.isPrefixOf (bytes ++ rest) = true := by simp
  simp [exactly, front]

theorem reads_times {write : α → List UInt8} {items : List α}
    (h : ∀ x ∈ items, p.Reads (write x) x) :
    (p.times items.length).Reads (items.flatMap write) items := by
  induction items with
  | nil => exact reads_pure []
  | cons x items ih =>
    rw [List.flatMap_cons]
    have others := ih fun y hy => h y (List.mem_cons_of_mem x hy)
    exact (h x List.mem_cons_self).bind (others.map (x :: ·))

/-- What a first byte decides reads what follows it. -/
theorem Reads.tagged (tag : UInt8) {choose : UInt8 → Option (Parser α)} (found : choose tag = some p)
    (h : p.Reads xs a) (reason : Reason) :
    Reads (Parser.filterMap byte choose reason >>= fun p => p) (tag :: xs) a :=
  ((reads_byte tag).filterMap found reason).bind h

/-! ## Integers -/

/-- Writing drops seven bits at a time, so the induction is on the number; one of more than seven bits needs a
width of more than seven. -/
theorem reads_unsigned (width : Nat) {n : Nat} (h : n < 2 ^ width) :
    (unsigned width).Reads (Integer.unsigned n) n := by
  intro rest
  induction n using Nat.strongRecOn generalizing width with
  | ind n ih =>
    rw [Integer.unsigned]
    split
    · next small =>
      have value : (UInt8.ofNat n).toNat = n := UInt8.toNat_ofNat_of_lt' (by simp [UInt8.size]; omega)
      have last : UInt8.ofNat n < 128 := by simp [UInt8.lt_iff_toNat_lt, value, small]
      simp [Parser.unsigned, last, value, Nat.one_shiftLeft, h]
    · next big =>
      have value : (UInt8.ofNat (n % 128 + 128)).toNat = n % 128 + 128 :=
        UInt8.toNat_ofNat_of_lt' (by simp [UInt8.size]; omega)
      have more : ¬ UInt8.ofNat (n % 128 + 128) < 128 := by
        rw [UInt8.lt_iff_toNat_lt, value]
        exact Nat.not_lt.2 (Nat.le_add_left 128 _)
      have wide : 7 < width := by
        refine Nat.lt_of_not_le fun narrow => ?_
        have := Nat.pow_le_pow_right (n := 2) (by decide) narrow
        omega
      have fits : n / 128 < 2 ^ (width - 7) := by
        have split : 2 ^ width = 2 ^ (width - 7) * 128 := by
          rw [← Nat.pow_sub_mul_pow 2 (Nat.le_of_lt wide)]
        rw [Nat.div_lt_iff_lt_mul (by decide), ← split]
        exact h
      have later := ih (n / 128) (by omega) (width - 7) fits
      have whole : 128 * (n / 128) + (n % 128 + 128 - 128) = n := by omega
      simp only [List.cons_append, Parser.unsigned, more, if_false, wide, if_true, later, value, whole]

/-- A division by 128 makes the absolute value smaller on both sides of zero; the sign decides which of the two
ranges of a last byte is taken. -/
theorem reads_signed (width : Nat) {n : Int} (low : -2 ^ (width - 1) ≤ n) (high : n < 2 ^ (width - 1)) :
    (signed width).Reads (Integer.signed n) n := by
  intro rest
  induction h : n.natAbs using Nat.strongRecOn generalizing width n with
  | ind m ih =>
    subst h
    have power : ((2 ^ (width - 1) : Nat) : Int) = 2 ^ (width - 1) := by push_cast; rfl
    rw [Integer.signed]
    split
    · next small =>
      have value : (UInt8.ofNat (n % 128).toNat).toNat = (n % 128).toNat :=
        UInt8.toNat_ofNat_of_lt' (by simp [UInt8.size]; omega)
      simp only [List.cons_append, List.nil_append, Parser.signed, UInt8.lt_iff_toNat_lt,
        UInt8.le_iff_toNat_le, value, UInt8.reduceToNat]
      by_cases positive : 0 ≤ n
      · rw [if_pos ⟨by omega, by omega⟩]
        congr 2
        omega
      · rw [if_neg (by omega), if_pos ⟨by omega, by omega, by omega⟩]
        congr 2
        omega
    · next big =>
      have value : (UInt8.ofNat ((n % 128).toNat + 128)).toNat = (n % 128).toNat + 128 :=
        UInt8.toNat_ofNat_of_lt' (by simp [UInt8.size]; omega)
      have wide : 7 < width := by
        refine Nat.lt_of_not_le fun narrow => ?_
        have := Nat.pow_le_pow_right (n := 2) (by decide) (show width - 1 ≤ 6 by omega)
        omega
      have split : (2 : Int) ^ (width - 1) = 2 ^ (width - 7 - 1) * 128 := by
        rw [show width - 1 = (width - 7 - 1) + 7 by omega, Int.pow_add]
        rfl
      have later := ih (n / 128).natAbs (by omega) (width - 7) (n := n / 128) (by omega) (by omega) rfl
      simp only [List.cons_append, Parser.signed, UInt8.lt_iff_toNat_lt, UInt8.le_iff_toNat_le, value,
        UInt8.reduceToNat]
      rw [if_neg (by omega), if_neg (by omega), if_pos ⟨by omega, wide⟩, later]
      simp only
      congr 2
      omega

theorem reads_word (n : UInt16) : word.Reads (Encode.word n) n := by
  have := (reads_unsigned 16 n.toNat_lt).map UInt16.ofNat
  rwa [UInt16.ofNat_toNat] at this

theorem reads_label (l : Label) : label.Reads (Encode.label l) l := by
  have := (reads_unsigned 32 l.toNat_lt).map UInt32.ofNat
  rwa [UInt32.ofNat_toNat] at this

theorem reads_count {n : Nat} (h : n < 2 ^ 32) : count.Reads (Encode.count n) (UInt32.ofNat n) := by
  have small : n < 4294967296 := h
  rw [Encode.count, Nat.mod_eq_of_lt small]
  exact (reads_unsigned 32 h).map UInt32.ofNat

theorem reads_short (n : Int16) : short.Reads (Integer.signed n.toInt) n := by
  have := (reads_signed 16 n.le_toInt n.toInt_lt).map Int16.ofInt
  rwa [Int16.ofInt_toInt] at this

theorem reads_int (n : Int32) : int.Reads (Integer.signed n.toInt) n := by
  have := (reads_signed 32 n.le_toInt n.toInt_lt).map Int32.ofInt
  rwa [Int32.ofInt_toInt] at this

theorem reads_long (n : Int64) : long.Reads (Integer.signed n.toInt) n := by
  have := (reads_signed 64 n.le_toInt n.toInt_lt).map Int64.ofInt
  rwa [Int64.ofInt_toInt] at this

/-! ## Lists and texts -/

theorem reads_vec {write : α → List UInt8} {items : List α} (short : items.length < 2 ^ 32)
    (h : ∀ x ∈ items, p.Reads (write x) x) : (vec p).Reads (Encode.vec write items) items := by
  refine (reads_count short).bind ?_
  rw [UInt32.toNat_ofNat_of_lt' short]
  exact reads_times h

theorem text?_utf8 (s : String) : text? s.toUTF8.data.toList = some s := by
  simp [text?, String.fromUTF8?, String.fromUTF8, s.isValidUTF8]

theorem reads_name {s : String} (short : s.utf8ByteSize < 2 ^ 32) : name.Reads (Encode.name s) s := by
  have length : s.toUTF8.data.toList.length = s.utf8ByteSize := by simp
  refine Reads.filterMap (a := s.toUTF8.data.toList) ?_ (text?_utf8 s) .invalidText
  refine (reads_count (length ▸ short)).bind ?_
  rw [UInt32.toNat_ofNat_of_lt' (length ▸ short)]
  exact reads_take _

theorem reads_optName {s : Option String} (short : ∀ t ∈ s, t.utf8ByteSize < 2 ^ 32) :
    optName.Reads (Encode.optName s) s := by
  cases s with
  | none => exact ((reads_byte 0x00).filterMap (b := false) rfl .invalidTag).bind (reads_pure _)
  | some t =>
    have text := (reads_name (short t rfl)).map some
    exact ((reads_byte 0x01).filterMap (b := true) rfl .invalidTag).bind text

/-! ## Bits -/

theorem littleEndian_bits32 (n : UInt32) : UInt32.ofNat (littleEndian (Encode.bits32 n)) = n := by
  apply UInt32.toNat_inj.1
  have := n.toNat_lt
  simp [littleEndian, Encode.bits32, UInt32.toNat_shiftRight, Nat.shiftRight_eq_div_pow]
  omega

theorem reads_bits32 (n : UInt32) : bits32.Reads (Encode.bits32 n) n := by
  have := (reads_take (Encode.bits32 n)).map fun bytes => UInt32.ofNat (littleEndian bytes)
  rwa [littleEndian_bits32] at this

theorem littleEndian_bits64 (n : UInt64) : UInt64.ofNat (littleEndian (Encode.bits64 n)) = n := by
  apply UInt64.toNat_inj.1
  have := n.toNat_lt
  simp [littleEndian, Encode.bits64, Encode.bits32, UInt32.toNat_shiftRight, UInt64.toNat_shiftRight,
    Nat.shiftRight_eq_div_pow]
  omega

theorem reads_bits64 (n : UInt64) : bits64.Reads (Encode.bits64 n) n := by
  have := (reads_take (Encode.bits64 n)).map fun bytes => UInt64.ofNat (littleEndian bytes)
  rwa [littleEndian_bits64] at this

end Parser

end Suspension.Container
