import Suspension.Number.BinaryFormat

/-!
# Shortest decimal text of binary floating-point numbers

A finite number is written with the fewest decimal digits that no other number of its format is nearer
to, and of those with the digits nearest to it.

## Main definitions
* `BinaryFormat.digits`: the shortest digits of a positive number, and where the point stands.
* `BinaryFormat.text`: its text, positional from `1e-4` on and below `1e16`.
-/

namespace Suspension

namespace BinaryFormat

variable (f : BinaryFormat)

/-- The exponent of the smallest positive number, negated. -/
def scale : Nat := 1 <<< (f.exponent - 1) - 2 + f.fraction

/-- The ends of the interval of numbers nearer to a magnitude than to any other, in quarters of the
smallest positive number, and whether the ends belong to it. -/
def interval (magnitude : Nat) : Nat × Nat × Bool :=
  let e := magnitude >>> f.fraction
  let gap := 1 <<< (e - 1)
  let u := 4 * f.units magnitude
  let below := if magnitude % 1 <<< f.fraction = 0 ∧ 1 < e then gap else 2 * gap
  (u - below, u + 2 * gap, magnitude % 2 = 0)

/-- The least `k` from `low` on with `v < den * 10 ^ (k - bias)`. -/
def decimalExponent (v den bias : Nat) : Nat → Nat → Nat
  | 0, k => k
  | fuel + 1, k => if v * Nat.pow 10 bias < den * Nat.pow 10 k then k else decimalExponent v den bias fuel (k + 1)

/-- The digits of the first grid that has a point in the interval, the coarsest first.  The value is
`v / den`, the grid of `n` digits has the step `10 ^ (k - bias - n)`. -/
def firstGrid (v low high den : Nat) (closed : Bool) (k bias : Nat) : Nat → Nat → Nat × Nat
  | 0, n => (0, n)
  | fuel + 1, n =>
    let num := Nat.pow 10 (bias + n)
    let step := den * Nat.pow 10 k
    let down := v * num / step
    let inside (c : Nat) : Bool :=
      if closed then low * num ≤ c * step && c * step ≤ high * num
      else low * num < c * step && c * step < high * num
    let nearer := if 2 * (v * num - down * step) < step then down else down + 1
    let other := if nearer = down then down + 1 else down
    if inside nearer then (nearer, n)
    else if inside other then (other, n)
    else firstGrid v low high den closed k bias fuel (n + 1)

/-- The shortest digits of a positive finite magnitude, and the place of the point before them: the
value is `0.d₁d₂…` times ten to that place. -/
def digits (magnitude : Nat) : List Char × Int :=
  let (low, high, closed) := f.interval magnitude
  let v := 4 * f.units magnitude
  let den := 1 <<< (f.scale + 2)
  let bias := 400
  let k := decimalExponent v den bias 800 0
  let (c, n) := firstGrid v low high den closed k bias 20 1
  let text := Nat.toDigits 10 c
  let place : Int := (k : Int) - bias + (text.length - n : Int)
  ((text.reverse.dropWhile (· = '0')).reverse, place)

/-- The digits with a point at a place, at least one digit on each side. -/
def positional (ds : List Char) (place : Int) : List Char :=
  if place ≤ 0 then '0' :: '.' :: List.replicate place.natAbs '0' ++ ds
  else
    let n := place.toNat
    let whole := ds.take n ++ List.replicate (n - ds.length) '0'
    let rest := ds.drop n
    whole ++ '.' :: (if rest.isEmpty then ['0'] else rest)

/-- The digits with a point behind the first one and an exponent. -/
def scientific (ds : List Char) (place : Int) : List Char :=
  match ds with
  | [] => ['0']
  | d :: rest =>
    d :: (if rest.isEmpty then [] else '.' :: rest) ++ 'e' :: (toString (place - 1)).toList

/-- The text of a number. -/
def text (bits : Nat) : String :=
  let m := f.magnitude bits
  if f.isNaN bits then "NaN"
  else
    let sign := if f.isNegative bits then "-" else ""
    if m = f.infinity then sign ++ "inf"
    else if m = 0 then sign ++ "0.0"
    else
      let (ds, place) := f.digits m
      sign ++ String.ofList
        (if -4 < place ∧ place ≤ 16 then positional ds place else scientific ds place)

end BinaryFormat

end Suspension
