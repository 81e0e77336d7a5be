/-!
# Binary floating-point numbers as bits

The finite numbers of a format are the multiples of its smallest positive one that fit, so exact
arithmetic on them is arithmetic on natural numbers.

## Main definitions
* `BinaryFormat`: how many bits the fraction and the exponent of a format take.
* `BinaryFormat.units`, `BinaryFormat.ofUnits`: a finite number as a multiple, and back.
* `BinaryFormat.remainder`: the exact remainder of a division that is cut toward zero.
-/

namespace Suspension

/-- A format of floating-point numbers: a sign bit, an exponent, a fraction, from the top down. -/
structure BinaryFormat where
  fraction : Nat
  exponent : Nat

namespace BinaryFormat

/-- The format of floats. -/
def single : BinaryFormat := ⟨23, 8⟩

/-- The format of doubles. -/
def double : BinaryFormat := ⟨52, 11⟩

variable (f : BinaryFormat)

/-- The bits without the sign. -/
def magnitude (bits : Nat) : Nat := bits % 1 <<< (f.fraction + f.exponent)

/-- Whether the sign bit is set. -/
def isNegative (bits : Nat) : Bool := bits >>> (f.fraction + f.exponent) % 2 = 1

/-- The magnitude of an infinity; those above it are no numbers. -/
def infinity : Nat := (1 <<< f.exponent - 1) <<< f.fraction

/-- Whether the bits stand for no number. -/
def isNaN (bits : Nat) : Bool := f.infinity < f.magnitude bits

/-- A finite magnitude as a multiple of the smallest positive number. -/
def units (magnitude : Nat) : Nat :=
  let e := magnitude >>> f.fraction
  let m := magnitude % 1 <<< f.fraction
  if e = 0 then m else (1 <<< f.fraction + m) <<< (e - 1)

/-- The magnitude of a multiple of the smallest positive number that the format can hold. -/
def ofUnits (u : Nat) : Nat :=
  if u < 1 <<< f.fraction then u
  else
    let shift := u.log2 - f.fraction
    (shift + 1) <<< f.fraction + (u >>> shift - 1 <<< f.fraction)

/-- The bits of a quiet value that is no number. -/
def nan : Nat := f.infinity + 1 <<< (f.fraction - 1)

/-- The remainder of `a` divided by `b`, where the quotient is cut toward zero: it has the sign of `a`,
is smaller than `b`, and is exact. -/
def remainder (a b : Nat) : Nat :=
  let x := f.magnitude a
  let y := f.magnitude b
  if f.infinity ≤ x ∨ f.infinity < y ∨ y = 0 then f.nan
  else
    let r := if y = f.infinity then x else f.ofUnits (f.units x % f.units y)
    if f.isNegative a then 1 <<< (f.fraction + f.exponent) + r else r

end BinaryFormat

end Suspension
