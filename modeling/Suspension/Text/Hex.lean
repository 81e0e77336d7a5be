/-!
# Hexadecimal text

Bits and bytes are written with a fixed number of lower-case hexadecimal digits, and read back with
digits of either case.

## Main definitions
* `hex`, `ofHex?`: a number with a fixed number of digits.
* `hexBytes`, `bytesOfHex?`: bytes with two digits each.
-/

namespace Suspension.Text

/-- The digit of a value below sixteen. -/
def hexDigit (d : Nat) : Char := Char.ofNat (if d < 10 then 48 + d else 87 + d)

/-- The value of a digit. -/
def hexValue? (c : Char) : Option Nat :=
  let n := c.toNat
  if 48 ≤ n ∧ n ≤ 57 then some (n - 48)
  else if 97 ≤ n ∧ n ≤ 102 then some (n - 87)
  else if 65 ≤ n ∧ n ≤ 70 then some (n - 55)
  else none

theorem hexValue?_hexDigit (d : Fin 16) : hexValue? (hexDigit d) = some d.val := by
  revert d
  decide

/-- The lowest digits of a number, the most significant first. -/
def hexDigits : (digits n : Nat) → List Char
  | 0, _ => []
  | digits + 1, n => hexDigits digits (n / 16) ++ [hexDigit (n % 16)]

/-- A number with a fixed number of digits. -/
def hex (digits n : Nat) : String := String.ofList (hexDigits digits n)

/-- The number that digits stand for. -/
def ofHexDigits? (cs : List Char) : Option Nat :=
  cs.foldlM (fun n c => (hexValue? c).map (16 * n + ·)) 0

/-- The number that a text with exactly the given number of digits stands for. -/
def ofHex? (digits : Nat) (s : String) : Option Nat :=
  if s.toList.length = digits then ofHexDigits? s.toList else none

theorem ofHexDigits?_hexDigits (digits n : Nat) :
    ofHexDigits? (hexDigits digits n) = some (n % Nat.pow 16 digits) := by
  induction digits generalizing n with
  | zero => simp [hexDigits, ofHexDigits?, Nat.mod_one]
  | succ k ih =>
    have hd := hexValue?_hexDigit ⟨n % 16, Nat.mod_lt _ (by decide)⟩
    have hn : n % Nat.pow 16 (k + 1) = 16 * (n / 16 % Nat.pow 16 k) + n % 16 := by
      have power : Nat.pow 16 (k + 1) = 16 * Nat.pow 16 k := Nat.mul_comm ..
      rw [power, Nat.mod_mul]
      omega
    simp only [ofHexDigits?] at ih ⊢
    simp only at hd
    rw [hn]
    simp [hexDigits, ih, hd]

/-- Bytes with two digits each. -/
def hexBytes (bytes : List UInt8) : String :=
  bytes.foldl (fun s b => s ++ hex 2 b.toNat) ""

/-- The bytes that pairs of digits stand for, in front of bytes that were read before. -/
def bytesOfDigits? (read : Array UInt8) : List Char → Option (Array UInt8)
  | [] => some read
  | a :: b :: rest =>
    match ofHexDigits? [a, b] with
    | some n => bytesOfDigits? (read.push (UInt8.ofNat n)) rest
    | none => none
  | [_] => none

/-- The bytes that a text stands for. -/
def bytesOfHex? (s : String) : Option (List UInt8) :=
  (bytesOfDigits? #[] s.toList).map Array.toList

end Suspension.Text
