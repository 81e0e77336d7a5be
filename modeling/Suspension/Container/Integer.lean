import Suspension.Container.Parser

/-!
# Integers of variable length

An integer is cut into groups of seven bits, the least significant first.  Each group is one byte,
and every byte but the last has its top bit set.  A signed integer is extended from bit 6 of its last
byte.  Reading is given the width of the integer and refuses values out of its range at the byte
where they leave it; longer forms than necessary are accepted.

## Main definitions
* `Integer.unsigned`, `Integer.signed`: the shortest form of a number.
* `Parser.unsigned`, `Parser.signed`: read a number of a given width.
-/

namespace Suspension.Container

namespace Integer

/-- The shortest form of a natural number. -/
def unsigned (n : Nat) : List UInt8 :=
  if n < 128 then [UInt8.ofNat n] else UInt8.ofNat (n % 128 + 128) :: unsigned (n / 128)
termination_by n
decreasing_by omega

/-- The shortest form of an integer. -/
def signed (n : Int) : List UInt8 :=
  if -64 ≤ n ∧ n < 64 then [UInt8.ofNat (n % 128).toNat]
  else UInt8.ofNat ((n % 128).toNat + 128) :: signed (n / 128)
termination_by n.natAbs
decreasing_by omega

end Integer

namespace Parser

/-- A natural number of at most `width` bits. -/
def unsigned (width : Nat) : Parser Nat
  | [] => .error ⟨0, .endOfInput, []⟩
  | b :: rest =>
    if b < 128 then
      if b.toNat < 1 <<< width then .ok (b.toNat, rest)
      else .error ⟨rest.length + 1, .outOfRange, []⟩
    else if 7 < width then
      match unsigned (width - 7) rest with
      | .ok (m, rest) => .ok (128 * m + (b.toNat - 128), rest)
      | .error e => .error e
    else .error ⟨rest.length + 1, .outOfRange, []⟩

/-- An integer of at most `width` bits, the sign included. -/
def signed (width : Nat) : Parser Int
  | [] => .error ⟨0, .endOfInput, []⟩
  | b :: rest =>
    if b < 64 ∧ b.toNat < 1 <<< (width - 1) then .ok (b.toNat, rest)
    else if 64 ≤ b ∧ b < 128 ∧ 128 ≤ b.toNat + 1 <<< (width - 1) then
      .ok ((b.toNat : Int) - 128, rest)
    else if 128 ≤ b ∧ 7 < width then
      match signed (width - 7) rest with
      | .ok (m, rest) => .ok (128 * m + ((b.toNat : Int) - 128), rest)
      | .error e => .error e
    else .error ⟨rest.length + 1, .outOfRange, []⟩

end Parser

end Suspension.Container
