/-!
# Finite doubles

A finite double-precision number is a sign and a **rank**: the place of its magnitude in
the increasing list of all finite magnitudes, which starts with zero at rank `0`. The rank
is the number whose binary digits are the exponent field followed by the fraction field,
so every pair of a sign and a rank below `ConfigTree.Double.rankLimit` is one double and
no double is two such pairs.

The value comes back as `significand * 2 ^ scale` in units of `2 ^ (-1074)`, the least
positive magnitude; both are natural numbers, and all arithmetic on doubles here is exact
arithmetic on natural numbers. Rounding is one function, `ConfigTree.Double.ofRatio?`:
the nearest double to a quotient, a tie going to the even significand, and nothing when
the nearest is out of range. Because neighbouring ranks are neighbouring magnitudes,
rounding up past the last significand of one scale lands on the first of the next without
a case of its own.
-/

namespace ConfigTree

/-- Ranks below this are finite magnitudes. -/
def Double.rankLimit : Nat := 0x7FF0000000000000

/-- A finite double: its sign and the rank of its magnitude. -/
structure Double where
  /-- Whether the sign bit is set; it may be for zero too. -/
  negative : Bool
  /-- The place of the magnitude among all finite magnitudes. -/
  rank : Fin Double.rankLimit
deriving DecidableEq

namespace Double

/-- The power of two by which the significand is scaled, in units of `2 ^ (-1074)`. -/
def scale (x : Double) : Nat := x.rank.val >>> 52 - 1

/-- The integer significand: below `2 ^ 53`, and at least `2 ^ 52` unless the scale is `0`. -/
def significand (x : Double) : Nat := x.rank - x.scale <<< 52

/-- The quotient of two natural numbers rounded to the nearest integer, a tie to the even one. -/
def roundQuotient (num den : Nat) : Nat :=
  let q := num / den
  let r := num % den
  if den < 2 * r ∨ (den = 2 * r ∧ q % 2 = 1) then q + 1 else q

/-- The rank of the double nearest to `num / den`, were there no last finite double. -/
def rankOfRatio (num den : Nat) : Nat :=
  let units := num <<< 1074
  let scale := Nat.log2 (units / den) - 52
  scale <<< 52 + roundQuotient units (den <<< scale)

/-- **Rounding**: the double nearest to `num / den` with the given sign, or nothing when
that is beyond the greatest finite double. -/
def ofRatio? (negative : Bool) (num den : Nat) : Option Double :=
  if h : rankOfRatio num den < rankLimit then some ⟨negative, ⟨_, h⟩⟩ else none

/-- Zero, of either sign. -/
def zero (negative : Bool) : Double := ⟨negative, ⟨0, by decide⟩⟩

/-- How many decimal digits a positive number has; zero counts as one digit. -/
def digitCount (n : Nat) : Nat := (Nat.toDigits 10 n).length

/-- **Decimal to double**: the double nearest to `digits * 10 ^ exponent`. A number with
its first digit at `10 ^ 310` or above is beyond every finite double, and one below
`10 ^ (-330)` is nearest to zero, so that no power of ten beyond these is ever computed. -/
def ofDecimal? (negative : Bool) (digits : Nat) (exponent : Int) : Option Double :=
  let top := exponent + digitCount digits
  if digits = 0 ∨ top < -330 then some (zero negative)
  else if 310 < top then none
  else ofRatio? negative (digits * Nat.pow 10 exponent.toNat) (Nat.pow 10 (-exponent).toNat)

end Double

end ConfigTree
