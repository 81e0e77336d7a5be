import Suspension.Proofs.Container.Canonical

/-!
# The bytes of an integer

An integer of some width is held by as many bytes as the width has groups of seven bits, or fewer.  The last of
them is known by its top bit, and the groups denote a number in the range of the width.  The readers take such
bytes off the front of an input and refuse all others.  What they compute on the way fits into words of 64 bits,
and what is written for a word is the shortest of all the forms that are read as its number.

## Main definitions
* `Integer.value`, `Integer.signedValue`: the number that bytes denote.
* `Integer.Form`: the bytes of an integer of some width.
* `Integer.Least`: the shortest bytes that denote a number.
* `Parser.unsignedInWords`, `Parser.signedInWords`: the readers as they compute with words, which may overflow.
* `Integer.unsigned32`, `Integer.signed64`: the forms as they are cut off words.

## Main results
* `Parser.unsigned_eq_ok`, `Parser.signed_eq_ok`: what is read.
* `Parser.unsignedInWords_eq`, `Parser.signedInWords_eq`: no operation overflows.
* `Integer.unsigned32_eq`, `Integer.signed64_eq`: what is cut off a word is the shortest form of its number.
* `integers_exact`: all of it.
-/

namespace Suspension.Container

/-! ## Forms and their numbers -/

namespace Integer

/-- The number that groups of seven bits denote, the least significant first. -/
def value (bytes : List UInt8) : Nat := bytes.foldr (fun b n => b.toNat % 128 + 128 * n) 0

/-- The number that groups of seven bits denote, extended from bit 6 of the last byte. -/
def signedValue (bytes : List UInt8) : Int :=
  if bytes.getLast?.any (·.toNat.testBit 6) then (value bytes : Int) - 2 ^ (7 * bytes.length) else value bytes

/-- The bytes of an integer of some width: one for each group of seven bits at most, of which exactly the last
has its top bit clear. -/
structure Form (width : Nat) (bytes : List UInt8) : Prop where
  pos : 0 < bytes.length
  short : bytes.length ≤ (width + 6) / 7
  last : ∀ (i : Nat) (h : i < bytes.length), bytes[i] < 128 ↔ i + 1 = bytes.length

variable {width : Nat} {b c : UInt8} {rest : List UInt8}

theorem form_singleton : Form width [b] ↔ 0 < width ∧ b.toNat < 128 := by
  constructor
  · rintro ⟨-, short, last⟩
    have clear : b < 128 := (last 0 (by simp)).2 rfl
    simp only [List.length_singleton] at short
    exact ⟨by omega, UInt8.lt_iff_toNat_lt.1 clear⟩
  · rintro ⟨wide, clear⟩
    refine ⟨by simp, by simp only [List.length_singleton]; omega, fun i h => ?_⟩
    obtain rfl : i = 0 := by simpa using h
    simpa using UInt8.lt_iff_toNat_lt.2 clear

/-- All bytes but the last take seven bits of the width. -/
theorem form_cons : Form width (b :: c :: rest) ↔ 7 < width ∧ 128 ≤ b.toNat ∧ Form (width - 7) (c :: rest) := by
  constructor
  · rintro ⟨-, short, last⟩
    have set : ¬ b < 128 := fun clear => by simpa using (last 0 (by simp)).1 clear
    rw [UInt8.lt_iff_toNat_lt] at set
    simp only [List.length_cons] at short
    refine ⟨by omega, Nat.not_lt.1 set, by simp, by simp only [List.length_cons]; omega, fun i h => ?_⟩
    simpa only [List.getElem_cons_succ, List.length_cons, Nat.add_right_cancel_iff] using
      last (i + 1) (Nat.succ_lt_succ h)
  · rintro ⟨wide, set, -, short, last⟩
    simp only [List.length_cons] at short
    refine ⟨by simp, by simp only [List.length_cons]; omega, fun i h => ?_⟩
    cases i with
    | zero => simpa [UInt8.lt_iff_toNat_lt] using set
    | succ i => simpa using last i (by simpa using h)

@[simp] theorem value_cons : value (b :: rest) = b.toNat % 128 + 128 * value rest := rfl

@[simp] theorem value_nil : value [] = 0 := rfl

theorem signedValue_singleton (clear : b.toNat < 128) :
    signedValue [b] = if b.toNat < 64 then (b.toNat : Int) else (b.toNat : Int) - 128 := by
  have bit : b.toNat.testBit 6 = decide (64 ≤ b.toNat) := by
    rw [Nat.testBit_eq_decide_div_mod_eq, decide_eq_decide]
    omega
  simp only [signedValue, List.getLast?_singleton, Option.any_some, bit, decide_eq_true_eq, value_cons, value_nil,
    List.length_singleton]
  split <;> split <;> omega

/-- The sign is that of the last byte, whatever stands in front of it. -/
theorem signedValue_cons : signedValue (b :: c :: rest) = b.toNat % 128 + 128 * signedValue (c :: rest) := by
  have power : (2 : Int) ^ (7 * (b :: c :: rest).length) = 128 * 2 ^ (7 * (c :: rest).length) := by
    rw [List.length_cons, Nat.mul_succ, Int.pow_add, Int.mul_comm]
    rfl
  unfold signedValue
  rw [List.getLast?_cons_cons, power, value_cons]
  split <;> push_cast <;> omega

end Integer

open Integer

namespace Parser

variable {width : Nat} {bytes rest : List UInt8}

/-! ## What is read -/

/-- Seven bits less. -/
theorem two_pow_sub (wide : 7 < width) : 2 ^ width = 2 ^ (width - 7) * 128 := by
  rw [← Nat.pow_sub_mul_pow 2 (Nat.le_of_lt wide)]

theorem two_pow_sub_one (wide : 7 < width) : (2 : Int) ^ (width - 1) = 2 ^ (width - 7 - 1) * 128 := by
  rw [show width - 1 = (width - 7 - 1) + 7 by omega, Int.pow_add]
  rfl

/-- A number is read if and only if the input begins with bytes that hold it, and it fits the width.  Each byte
leaves seven bits less of the width to those behind it. -/
theorem unsigned_eq_ok (wide : 0 < width) {n : Nat} : unsigned width bytes = .ok (n, rest) ↔
    ∃ taken, bytes = taken ++ rest ∧ Form width taken ∧ value taken = n ∧ n < 2 ^ width := by
  constructor
  · intro read
    induction bytes generalizing width n with
    | nil => cases read
    | cons b bytes ih =>
      have byte := b.toNat_lt
      simp only [unsigned, UInt8.lt_iff_toNat_lt, UInt8.reduceToNat, Nat.one_shiftLeft] at read
      split at read
      · next clear =>
        split at read
        · next fits =>
          cases read
          exact ⟨[b], rfl, form_singleton.2 ⟨wide, clear⟩, by simp; omega, fits⟩
        · cases read
      · next set =>
        split at read
        · next more =>
          split at read
          · next m rest' later =>
            simp only [Except.ok.injEq, Prod.mk.injEq] at read
            obtain ⟨rfl, rfl⟩ := read
            obtain ⟨taken, rfl, form, rfl, fits⟩ := ih (by omega) later
            cases taken with
            | nil => exact absurd form.pos (Nat.lt_irrefl 0)
            | cons c taken =>
              have room := two_pow_sub more
              refine ⟨b :: c :: taken, rfl, form_cons.2 ⟨more, Nat.not_lt.1 set, form⟩, ?_, by omega⟩
              rw [value_cons]
              omega
          · cases read
        · cases read
  · rintro ⟨taken, rfl, form, rfl, fits⟩
    induction taken generalizing width with
    | nil => exact absurd form.pos (Nat.lt_irrefl 0)
    | cons b taken ih =>
      have byte := b.toNat_lt
      cases taken with
      | nil =>
        obtain ⟨-, clear⟩ := form_singleton.1 form
        rw [value_cons, value_nil] at fits ⊢
        have low : b.toNat % 128 + 128 * 0 = b.toNat := by omega
        rw [low] at fits ⊢
        simp [unsigned, UInt8.lt_iff_toNat_lt, clear, Nat.one_shiftLeft, fits]
      | cons c taken =>
        obtain ⟨more, set, form⟩ := form_cons.1 form
        have room := two_pow_sub more
        rw [value_cons] at fits ⊢
        have later := ih (by omega) form (by omega)
        rw [List.cons_append, unsigned, if_neg (by rw [UInt8.lt_iff_toNat_lt]; exact Nat.not_lt.2 set), if_pos more,
          later]
        simp only [Except.ok.injEq, Prod.mk.injEq, and_true]
        omega

/-- The same of a signed number, whose range is that of one bit less to either side of zero.  The last byte
decides the sign, and with it which of the two ranges is looked into. -/
theorem signed_eq_ok (wide : 0 < width) {n : Int} : signed width bytes = .ok (n, rest) ↔
    ∃ taken, bytes = taken ++ rest ∧ Form width taken ∧ signedValue taken = n ∧
      -2 ^ (width - 1) ≤ n ∧ n < 2 ^ (width - 1) := by
  constructor
  · intro read
    induction bytes generalizing width n with
    | nil => cases read
    | cons b bytes ih =>
      have byte := b.toNat_lt
      have power : ((2 ^ (width - 1) : Nat) : Int) = 2 ^ (width - 1) := by push_cast; rfl
      simp only [signed, UInt8.lt_iff_toNat_lt, UInt8.le_iff_toNat_le, UInt8.reduceToNat, Nat.one_shiftLeft] at read
      split at read
      · next positive =>
        cases read
        refine ⟨[b], rfl, form_singleton.2 ⟨wide, by omega⟩, ?_, by omega, by omega⟩
        rw [signedValue_singleton (by omega), if_pos positive.1]
      · split at read
        · next negative =>
          cases read
          refine ⟨[b], rfl, form_singleton.2 ⟨wide, by omega⟩, ?_, by omega, by omega⟩
          rw [signedValue_singleton (by omega), if_neg (by omega)]
        · split at read
          · next more =>
            split at read
            · next m rest' later =>
              simp only [Except.ok.injEq, Prod.mk.injEq] at read
              obtain ⟨rfl, rfl⟩ := read
              obtain ⟨taken, rfl, form, rfl, low, high⟩ := ih (by omega) later
              cases taken with
              | nil => exact absurd form.pos (Nat.lt_irrefl 0)
              | cons c taken =>
                have room := two_pow_sub_one more.2
                refine ⟨b :: c :: taken, rfl, form_cons.2 ⟨more.2, more.1, form⟩, ?_, by omega, by omega⟩
                rw [signedValue_cons]
                omega
            · cases read
          · cases read
  · rintro ⟨taken, rfl, form, rfl, low, high⟩
    induction taken generalizing width with
    | nil => exact absurd form.pos (Nat.lt_irrefl 0)
    | cons b taken ih =>
      have byte := b.toNat_lt
      have power : ((2 ^ (width - 1) : Nat) : Int) = 2 ^ (width - 1) := by push_cast; rfl
      cases taken with
      | nil =>
        obtain ⟨-, clear⟩ := form_singleton.1 form
        rw [signedValue_singleton clear] at low high ⊢
        simp only [List.cons_append, List.nil_append, signed, UInt8.lt_iff_toNat_lt, UInt8.le_iff_toNat_le,
          UInt8.reduceToNat, Nat.one_shiftLeft]
        split at low
        · next positive => rw [if_pos (by omega), if_pos positive]
        · next negative => rw [if_neg (by omega), if_pos (by omega), if_neg negative]
      | cons c taken =>
        obtain ⟨more, set, form⟩ := form_cons.1 form
        have room := two_pow_sub_one more
        rw [signedValue_cons] at low high ⊢
        have later := ih (by omega) form (by omega) (by omega)
        have large : ¬ b < 64 ∧ ¬ b < 128 := by
          simp only [UInt8.lt_iff_toNat_lt, UInt8.reduceToNat]
          omega
        rw [List.cons_append, signed, if_neg fun h => large.1 h.1, if_neg fun h => large.2 h.2.1,
          if_pos ⟨UInt8.le_iff_toNat_le.2 set, more⟩, later]
        simp only [Except.ok.injEq, Prod.mk.injEq, and_true]
        omega

end Parser

/-! ## Reading with words -/

/-- What an operation on words computes, unless it overflows. -/
def checked (overflow : BitVec 64 → BitVec 64 → Bool) (operation : BitVec 64 → BitVec 64 → BitVec 64)
    (x y : BitVec 64) : Option (BitVec 64) :=
  if overflow x y then none else some (operation x y)

theorem checked_of_not {overflow : BitVec 64 → BitVec 64 → Bool} {operation : BitVec 64 → BitVec 64 → BitVec 64}
    {x y : BitVec 64} (fits : ¬ overflow x y) : checked overflow operation x y = some (operation x y) :=
  if_neg fits

namespace Parser

/-- A natural number of at most `width` bits, computed with words of 64 bits.  There is none where an operation
overflows. -/
def unsignedInWords (width : Nat) : List UInt8 → Option (Except Failure (BitVec 64 × List UInt8))
  | [] => some (.error ⟨0, .endOfInput, []⟩)
  | b :: rest =>
    let n := b.toBitVec.setWidth 64
    if n < 128 ∧ n.toNat < 1 <<< width then some (.ok (n, rest))
    else if 128 ≤ n ∧ 7 < width then do
      match ← unsignedInWords (width - 7) rest with
      | .ok (m, rest) =>
        let high ← checked BitVec.umulOverflow (· * ·) 128 m
        let low ← checked BitVec.usubOverflow (· - ·) n 128
        let sum ← checked BitVec.uaddOverflow (· + ·) high low
        return .ok (sum, rest)
      | .error e => return .error e
    else some (.error ⟨rest.length + 1, .outOfRange, []⟩)

/-- An integer of at most `width` bits, computed with signed words of 64 bits.  There is none where an operation
overflows. -/
def signedInWords (width : Nat) : List UInt8 → Option (Except Failure (BitVec 64 × List UInt8))
  | [] => some (.error ⟨0, .endOfInput, []⟩)
  | b :: rest =>
    let n := b.toBitVec.setWidth 64
    if n.toInt < 64 ∧ n.toInt < 2 ^ (width - 1) then some (.ok (n, rest))
    else if 64 ≤ n.toInt ∧ n.toInt < 128 ∧ 128 - 2 ^ (width - 1) ≤ n.toInt then do
      let n ← checked BitVec.ssubOverflow (· - ·) n 128
      return .ok (n, rest)
    else if 128 ≤ n.toInt ∧ 7 < width then do
      match ← signedInWords (width - 7) rest with
      | .ok (m, rest) =>
        let high ← checked BitVec.smulOverflow (· * ·) 128 m
        let low ← checked BitVec.ssubOverflow (· - ·) n 128
        let sum ← checked BitVec.saddOverflow (· + ·) high low
        return .ok (sum, rest)
      | .error e => return .error e
    else some (.error ⟨rest.length + 1, .outOfRange, []⟩)

variable {width : Nat} {bytes rest : List UInt8}

theorem toNat_word (b : UInt8) : (b.toBitVec.setWidth 64).toNat = b.toNat := by
  have := b.toNat_lt
  rw [BitVec.toNat_setWidth, UInt8.toNat_toBitVec]
  omega

theorem toInt_word (b : UInt8) : (b.toBitVec.setWidth 64).toInt = b.toNat := by
  have := b.toNat_lt
  rw [BitVec.toInt_eq_toNat_of_lt (by rw [toNat_word]; omega), toNat_word]

/-- No operation of the reader overflows, and it reads what the numbers say.  It follows the reader on numbers
case by case: a number that was read fits the width, which leaves room for each of the three operations. -/
theorem unsignedInWords_eq (narrow : width ≤ 64) :
    ∃ read, unsignedInWords width bytes = some read ∧ read.map (fun x => (x.1.toNat, x.2)) = unsigned width bytes := by
  induction bytes generalizing width with
  | nil => exact ⟨_, rfl, rfl⟩
  | cons b bytes ih =>
    have byte := b.toNat_lt
    simp only [unsignedInWords, unsigned, BitVec.lt_def, BitVec.le_def, toNat_word, UInt8.lt_iff_toNat_lt,
      show (128 : BitVec 64).toNat = 128 from rfl, show (128 : UInt8).toNat = 128 from rfl]
    by_cases clear : b.toNat < 128
    · by_cases fits : b.toNat < 1 <<< width
      · exact ⟨_, if_pos ⟨clear, fits⟩, by rw [if_pos clear, if_pos fits, ← toNat_word b]; rfl⟩
      · refine ⟨_, by rw [if_neg fun h => fits h.2, if_neg fun h => Nat.not_lt.2 h.1 clear], ?_⟩
        rw [if_pos clear, if_neg fits]
        rfl
    · rw [if_neg fun h => clear h.1, if_neg clear]
      by_cases more : 7 < width
      · obtain ⟨read, words, later⟩ := ih (show width - 7 ≤ 64 by omega)
        rw [if_pos ⟨Nat.not_lt.1 clear, more⟩, if_pos more, words, ← later]
        cases read with
        | error e => exact ⟨_, rfl, rfl⟩
        | ok read =>
          obtain ⟨m, rest⟩ := read
          obtain ⟨-, -, -, -, fits⟩ := (unsigned_eq_ok (by omega)).1 later.symm
          have bound : 2 ^ width ≤ 2 ^ 64 := Nat.pow_le_pow_right (by decide) narrow
          have room := two_pow_sub more
          have group : (128 : BitVec 64).toNat = 128 := rfl
          simp only at fits
          have product : ¬ BitVec.umulOverflow 128 m := by
            simp only [BitVec.umulOverflow, decide_eq_true_eq, group]
            omega
          have high := BitVec.toNat_mul_of_not_umulOverflow product
          have difference : ¬ BitVec.usubOverflow (b.toBitVec.setWidth 64) 128 := by
            simp only [BitVec.usubOverflow, decide_eq_true_eq, group, toNat_word]
            omega
          have low := BitVec.toNat_sub_of_not_usubOverflow difference
          simp only [group, toNat_word] at high low
          have total : ¬ BitVec.uaddOverflow (128 * m) (b.toBitVec.setWidth 64 - 128) := by
            simp only [BitVec.uaddOverflow, decide_eq_true_eq, high, low]
            omega
          have sum := BitVec.toNat_add_of_not_uaddOverflow total
          refine ⟨_, by simp only [Option.bind_eq_bind, Option.bind_some, checked_of_not product,
            checked_of_not difference, checked_of_not total]; rfl, ?_⟩
          simp only [Except.map, sum, high, low]
      · refine ⟨_, by rw [if_neg fun h => more h.2], ?_⟩
        rw [if_neg more]
        rfl

/-- No operation of the reader overflows, and it reads what the numbers say.  The difference is made in every
case, and of a byte it never overflows; what was read behind fits seven bits less than the width. -/
theorem signedInWords_eq (wide : 0 < width) (narrow : width ≤ 64) :
    ∃ read, signedInWords width bytes = some read ∧ read.map (fun x => (x.1.toInt, x.2)) = signed width bytes := by
  induction bytes generalizing width with
  | nil => exact ⟨_, rfl, rfl⟩
  | cons b bytes ih =>
    have byte := b.toNat_lt
    have group : (128 : BitVec 64).toInt = 128 := rfl
    have power : ((2 ^ (width - 1) : Nat) : Int) = 2 ^ (width - 1) := by push_cast; rfl
    have bound : 2 ^ (width - 1) ≤ 2 ^ 63 := Nat.pow_le_pow_right (by decide) (by omega)
    have difference : ¬ BitVec.ssubOverflow (b.toBitVec.setWidth 64) 128 := by
      simp only [BitVec.ssubOverflow, Bool.or_eq_true, decide_eq_true_eq, group, toInt_word]
      omega
    have low := BitVec.toInt_sub_of_not_ssubOverflow difference
    simp only [group, toInt_word] at low
    simp only [signedInWords, signed, toInt_word, UInt8.lt_iff_toNat_lt, UInt8.le_iff_toNat_le, UInt8.reduceToNat,
      Nat.one_shiftLeft, checked_of_not difference]
    by_cases positive : b.toNat < 64 ∧ b.toNat < 2 ^ (width - 1)
    · refine ⟨_, if_pos (by omega), ?_⟩
      rw [if_pos positive, ← toInt_word b]
      rfl
    · rw [if_neg (by omega), if_neg positive]
      by_cases negative : 64 ≤ b.toNat ∧ b.toNat < 128 ∧ 128 ≤ b.toNat + 2 ^ (width - 1)
      · refine ⟨_, if_pos (by omega), ?_⟩
        rw [if_pos negative, ← low]
        rfl
      · rw [if_neg (by omega), if_neg negative]
        by_cases more : 128 ≤ b.toNat ∧ 7 < width
        · obtain ⟨read, words, later⟩ := ih (show 0 < width - 7 by omega) (by omega)
          rw [if_pos (by omega), if_pos more, words, ← later]
          cases read with
          | error e => exact ⟨_, rfl, rfl⟩
          | ok read =>
            obtain ⟨m, rest⟩ := read
            obtain ⟨-, -, -, -, least, most⟩ := (signed_eq_ok (by omega)).1 later.symm
            have room := two_pow_sub_one more.2
            simp only at least most
            have product : ¬ BitVec.smulOverflow 128 m := by
              simp only [BitVec.smulOverflow, Bool.or_eq_true, decide_eq_true_eq, group]
              omega
            have high := BitVec.toInt_mul_of_not_smulOverflow product
            rw [group] at high
            have total : ¬ BitVec.saddOverflow (128 * m) (b.toBitVec.setWidth 64 - 128) := by
              simp only [BitVec.saddOverflow, Bool.or_eq_true, decide_eq_true_eq, high, low]
              omega
            have sum := BitVec.toInt_add_of_not_saddOverflow total
            refine ⟨_, by simp only [Option.bind_eq_bind, Option.bind_some, checked_of_not product,
              checked_of_not total]; rfl, ?_⟩
            simp only [Except.map, sum, high, low]
        · refine ⟨_, if_neg (by omega), ?_⟩
          rw [if_neg more]
          rfl

end Parser

namespace Integer

/-! ## What is written for a word -/

/-- The low seven bits of a number. -/
theorem and_127 (n : Nat) : n &&& 127 = n % 128 := Nat.and_two_pow_sub_one_eq_mod n 7

theorem toUInt8_low_unsigned (n : UInt32) : (n &&& 0x7f).toUInt8 = UInt8.ofNat (n.toNat % 128) := by
  apply UInt8.toNat_inj.1
  simp only [UInt32.toNat_toUInt8, UInt32.toNat_and, UInt32.reduceToNat, and_127, UInt8.toNat_ofNat', Nat.reducePow]

theorem toUInt8_low_signed (n : Int64) : (n &&& 0x7f).toUInt64.toUInt8 = UInt8.ofNat (n.toInt % 128).toNat := by
  have word := n.toBitVec.toInt_eq_toNat_cond
  have group : (n.toInt % 128).toNat = n.toUInt64.toNat % 128 := by
    rw [← Int64.toInt_toBitVec, ← UInt64.toNat_toBitVec, Int64.toBitVec_toUInt64, word]
    split <;> omega
  apply UInt8.toNat_inj.1
  rw [group, Int64.toUInt64_and, UInt64.toNat_toUInt8, UInt64.toNat_and,
    show (Int64.toUInt64 0x7f).toNat = 127 from rfl, and_127, UInt8.toNat_ofNat']

theorem toNat_rest (n : UInt32) : (n >>> 7).toNat = n.toNat / 128 := by
  rw [UInt32.toNat_shiftRight]
  exact Nat.shiftRight_eq_div_pow n.toNat 7

theorem toInt_rest (n : Int64) : (n >>> 7).toInt = n.toInt / 128 := by
  rw [← Int64.toInt_toBitVec, Int64.toBitVec_shiftRight, BitVec.toInt_sshiftRight']
  exact Int.shiftRight_eq_div_pow n.toInt 7

/-- The top bit is set to a group that does not have it. -/
theorem or_128 : ∀ n < 128, UInt8.ofNat n ||| 0x80 = UInt8.ofNat (n + 128) := by decide

/-- Bit 6 of a group. -/
theorem and_64 : ∀ n < 128, UInt8.ofNat n &&& 0x40 = 0 ↔ n < 64 := by decide

/-- The bytes of a word of 32 bits, cut off its low end. -/
def unsigned32 (n : UInt32) : List UInt8 :=
  let b := (n &&& 0x7f).toUInt8
  let rest := n >>> 7
  if rest = 0 then [b] else (b ||| 0x80) :: unsigned32 rest
termination_by n.toNat
decreasing_by
  next more =>
    have some : (n >>> 7).toNat ≠ 0 := fun h => more (UInt32.toNat_inj.1 h)
    rw [toNat_rest] at some ⊢
    omega

/-- The rest is the sign, and bit 6 shows it, if and only if the number fits a group. -/
theorem signed_last (n : Int64) :
    (n >>> 7 = 0 ∧ (n &&& 0x7f).toUInt64.toUInt8 &&& 0x40 = 0 ∨
      n >>> 7 = -1 ∧ (n &&& 0x7f).toUInt64.toUInt8 &&& 0x40 ≠ 0) ↔ -64 ≤ n.toInt ∧ n.toInt < 64 := by
  rw [toUInt8_low_signed, ne_eq, and_64 _ (by omega), ← Int64.toInt_inj, ← Int64.toInt_inj, toInt_rest,
    Int64.toInt_zero, show (-1 : Int64).toInt = -1 from rfl]
  omega

/-- The bytes of a signed word of 64 bits.  They end where the rest is the sign, and bit 6 shows it. -/
def signed64 (n : Int64) : List UInt8 :=
  let b := (n &&& 0x7f).toUInt64.toUInt8
  let rest := n >>> 7
  if rest = 0 ∧ b &&& 0x40 = 0 ∨ rest = -1 ∧ b &&& 0x40 ≠ 0 then [b] else (b ||| 0x80) :: signed64 rest
termination_by n.toInt.natAbs
decreasing_by
  next more =>
    have := mt (signed_last n).2 more
    rw [toInt_rest]
    omega

theorem unsigned32_eq (n : UInt32) : unsigned32 n = unsigned n.toNat := by
  fun_induction unsigned32 n with
  | case1 n b rest last =>
    have whole := toNat_rest n
    rw [show n >>> 7 = 0 from last, UInt32.toNat_zero] at whole
    rw [unsigned, if_pos (by omega), show b = _ from toUInt8_low_unsigned n, Nat.mod_eq_of_lt (by omega)]
  | case2 n b rest more ih =>
    have whole : rest.toNat = n.toNat / 128 := toNat_rest n
    have some : rest.toNat ≠ 0 := fun h => more (UInt32.toNat_inj.1 h)
    rw [unsigned, if_neg (by omega), ih, show b = _ from toUInt8_low_unsigned n, or_128 _ (by omega), whole]

theorem signed64_eq (n : Int64) : signed64 n = signed n.toInt := by
  fun_induction signed64 n with
  | case1 n b rest last => rw [signed, if_pos ((signed_last n).1 last), ← toUInt8_low_signed]
  | case2 n b rest more ih =>
    rw [signed, if_neg (mt (signed_last n).2 more), ih, show b = _ from toUInt8_low_signed n, or_128 _ (by omega),
      toInt_rest]

/-! ## The shortest form -/

variable {α : Type} {width : Nat} {bytes : List UInt8}

/-- Bytes of some width denote a number, and of all the bytes of any width that do they are the shortest. -/
structure Least (denoted : List UInt8 → α) (width : Nat) (a : α) (bytes : List UInt8) : Prop where
  form : Form width bytes
  denotes : denoted bytes = a
  shortest : ∀ (width : Nat) (taken : List UInt8), Form width taken → denoted taken = a → Shortest bytes taken

theorem Form.mono {wider : Nat} (h : width ≤ wider) (form : Form width bytes) : Form wider bytes :=
  ⟨form.pos, by have := form.short; omega, form.last⟩

theorem least_unsigned (wide : 0 < width) {n : Nat} (fits : n < 2 ^ width) : Least value width n (unsigned n) := by
  obtain ⟨taken, whole, form, denotes, -⟩ := (Parser.unsigned_eq_ok wide).1 (Parser.reads_unsigned width fits [])
  obtain rfl := List.append_cancel_right whole
  refine ⟨form, denotes, fun other taken form denotes => ?_⟩
  have room : n < 2 ^ (other + n + 1) :=
    Nat.lt_of_lt_of_le Nat.lt_two_pow_self (Nat.pow_le_pow_right (by decide) (by omega))
  obtain ⟨_, rfl, -, shortest⟩ := Parser.canonical_unsigned (other + n + 1) taken n []
    ((Parser.unsigned_eq_ok (by omega)).2
      ⟨taken, (List.append_nil taken).symm, form.mono (by omega), denotes, room⟩)
  rwa [List.append_nil]

theorem least_signed (wide : 0 < width) {n : Int} (low : -2 ^ (width - 1) ≤ n) (high : n < 2 ^ (width - 1)) :
    Least signedValue width n (signed n) := by
  obtain ⟨taken, whole, form, denotes, -⟩ := (Parser.signed_eq_ok wide).1 (Parser.reads_signed width low high [])
  obtain rfl := List.append_cancel_right whole
  refine ⟨form, denotes, fun other taken form denotes => ?_⟩
  have room : n.natAbs < 2 ^ (other + n.natAbs) :=
    Nat.lt_of_lt_of_le Nat.lt_two_pow_self (Nat.pow_le_pow_right (by decide) (by omega))
  have power : ((2 ^ (other + n.natAbs) : Nat) : Int) = 2 ^ (other + n.natAbs + 1 - 1) := by push_cast; rfl
  obtain ⟨_, rfl, -, shortest⟩ := Parser.canonical_signed (other + n.natAbs + 1) taken n []
    ((Parser.signed_eq_ok (by omega)).2
      ⟨taken, (List.append_nil taken).symm, form.mono (by omega), denotes, by omega, by omega⟩)
  rwa [List.append_nil]

end Integer

/-- Numbers of 1 to 64 bits are read exactly from the bytes that hold them, no operation on words of 64 bits
overflows on the way, and what is written for a word is the shortest of the forms that are read as its number, in
every width that has room for it. -/
theorem integers_exact {width : Nat} (wide : 1 ≤ width) (narrow : width ≤ 64) :
    (∀ bytes n rest, Parser.unsigned width bytes = .ok (n, rest) ↔
      ∃ taken, bytes = taken ++ rest ∧ Form width taken ∧ value taken = n ∧ n < 2 ^ width) ∧
    (∀ bytes n rest, Parser.signed width bytes = .ok (n, rest) ↔
      ∃ taken, bytes = taken ++ rest ∧ Form width taken ∧ signedValue taken = n ∧
        -2 ^ (width - 1) ≤ n ∧ n < 2 ^ (width - 1)) ∧
    (∀ bytes, ∃ read, Parser.unsignedInWords width bytes = some read ∧
      read.map (fun x => (x.1.toNat, x.2)) = Parser.unsigned width bytes) ∧
    (∀ bytes, ∃ read, Parser.signedInWords width bytes = some read ∧
      read.map (fun x => (x.1.toInt, x.2)) = Parser.signed width bytes) ∧
    (∀ v : UInt32, unsigned32 v = unsigned v.toNat ∧ Least value 32 v.toNat (unsigned32 v) ∧
      (v.toNat < 2 ^ width → (Parser.unsigned width).Reads (unsigned32 v) v.toNat)) ∧
    (∀ v : Int64, signed64 v = signed v.toInt ∧ Least signedValue 64 v.toInt (signed64 v) ∧
      (-2 ^ (width - 1) ≤ v.toInt → v.toInt < 2 ^ (width - 1) →
        (Parser.signed width).Reads (signed64 v) v.toInt) ∧
      (Parser.signed 64).Reads (signed64 v) v.toInt) := by
  refine ⟨fun bytes n rest => Parser.unsigned_eq_ok wide, fun bytes n rest => Parser.signed_eq_ok wide,
    fun bytes => Parser.unsignedInWords_eq narrow, fun bytes => Parser.signedInWords_eq wide narrow,
    fun v => ⟨unsigned32_eq v, ?_, fun fits => ?_⟩, fun v => ⟨signed64_eq v, ?_, fun low high => ?_, ?_⟩⟩
  · rw [unsigned32_eq]
    exact least_unsigned (by decide) v.toNat_lt
  · rw [unsigned32_eq]
    exact Parser.reads_unsigned width fits
  · rw [signed64_eq]
    exact least_signed (by decide) v.le_toInt v.toInt_lt
  · rw [signed64_eq]
    exact Parser.reads_signed width low high
  · rw [signed64_eq]
    exact Parser.reads_signed 64 v.le_toInt v.toInt_lt

/-- The last group of ten bits has three, and the number may be written longer than it must be. -/
theorem integers_exact_ten :
    1 ≤ 10 ∧ 10 ≤ 64 ∧ Parser.unsigned 10 [0xff, 0x07, 0x2a] = .ok (1023, [0x2a]) ∧
      Parser.signed 10 [0x80, 0x7c] = .ok (-512, []) ∧ (Parser.unsigned 10).Reads (unsigned32 300) 300 := by
  obtain ⟨unsigned, signed, -, -, words, -⟩ := integers_exact (show 1 ≤ 10 by decide) (show 10 ≤ 64 by decide)
  refine ⟨by decide, by decide, (unsigned _ _ _).2 ⟨[0xff, 0x07], rfl, ?_, by decide, by decide⟩,
    (signed _ _ _).2 ⟨[0x80, 0x7c], rfl, ?_, by decide, by decide⟩, (words 300).2.2 (by decide)⟩
  · exact form_cons.2 ⟨by decide, by decide, form_singleton.2 ⟨by decide, by decide⟩⟩
  · exact form_cons.2 ⟨by decide, by decide, form_singleton.2 ⟨by decide, by decide⟩⟩

end Suspension.Container
