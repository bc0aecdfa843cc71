import ConfigTree.Number.Double

/-!
# The shortest decimal of a double

Many decimals read back as a given double: all those nearer to it than to its neighbours,
and those halfway when its significand is even. `ConfigTree.Double.shortest` picks the one
to print. It tries one significant digit, then two, and so on; with a given number of
digits only the two neighbours of the value on that decimal grid can be candidates. The
first grid with a candidate that reads back wins, of two candidates the nearer one is
taken, and of two equally near the one with the even last digit.

All comparisons are exact. They are made in units of `2 ^ (-1076)`, a quarter of the least
positive magnitude, in which a double, and both ends of the interval that reads back as
it, are natural numbers.
-/

namespace ConfigTree

/-- The decimal `digits * 10 ^ exponent`. -/
structure Decimal where
  /-- The digits, read as one number. -/
  digits : Nat
  /-- The power of ten of the last digit. -/
  exponent : Int
deriving DecidableEq

namespace Decimal

/-- Numerator and denominator of the decimal, in units of `2 ^ (-1076)`. -/
def ratio (d : Decimal) : Nat × Nat :=
  ((d.digits * Nat.pow 10 d.exponent.toNat) <<< 1076, Nat.pow 10 (-d.exponent).toNat)

end Decimal

namespace Double

/-- The magnitude in units of `2 ^ (-1076)`. -/
def quarters (x : Double) : Nat := (4 * x.significand) <<< x.scale

/-- Half the distance to the next greater magnitude, in units of `2 ^ (-1076)`. -/
def halfAbove (x : Double) : Nat := 2 <<< x.scale

/-- Half the distance to the next smaller magnitude, in units of `2 ^ (-1076)`; it is the
smaller one where the scale changes. -/
def halfBelow (x : Double) : Nat :=
  if x.significand = 1 <<< 52 ∧ 0 < x.scale then 1 <<< x.scale else 2 <<< x.scale

/-- **Reading back**: the decimal lies in the interval that rounds to the magnitude of `x`,
the ends included exactly when the significand is even. -/
def ReadsBack (x : Double) (d : Decimal) : Prop :=
  let (num, den) := d.ratio
  let low := (x.quarters - x.halfBelow) * den
  let high := (x.quarters + x.halfAbove) * den
  if x.significand % 2 = 0 then low ≤ num ∧ num ≤ high else low < num ∧ num < high

instance (x : Double) (d : Decimal) : Decidable (ReadsBack x d) := by
  unfold ReadsBack
  infer_instance

/-- The power of ten of the first significant digit of a nonzero magnitude. Every nonzero
magnitude is at least `10 ^ (-324)`, so that scaling by `10 ^ 324` leaves an integer part. -/
def leadingExponent (x : Double) : Int :=
  (digitCount ((x.quarters * Nat.pow 10 324) >>> 1076) : Int) - 325

/-- The greatest point of the grid of multiples of `10 ^ exponent` that is not above the
magnitude. -/
def gridBelow (x : Double) (exponent : Int) : Decimal :=
  ⟨x.quarters * Nat.pow 10 (-exponent).toNat / Nat.pow 10 exponent.toNat <<< 1076, exponent⟩

/-- Of the grid points around the magnitude, the nearer, or the even one in a tie. -/
def gridNearest (x : Double) (exponent : Int) : Decimal :=
  let below := x.gridBelow exponent
  let above : Decimal := ⟨below.digits + 1, exponent⟩
  let (num, den) := (⟨2 * below.digits + 1, exponent⟩ : Decimal).ratio
  -- `num / den` is twice the midpoint of the two
  let value := 2 * x.quarters * den
  if value < num ∨ (value = num ∧ below.digits % 2 = 0) then below else above

/-- The point of the grid that reads back, the nearer one if both neighbours do. -/
def onGrid? (x : Double) (exponent : Int) : Option Decimal :=
  let nearest := x.gridNearest exponent
  let below := x.gridBelow exponent
  [nearest, below, ⟨below.digits + 1, exponent⟩].find? fun d => x.ReadsBack d

/-- **The shortest decimal** of a nonzero magnitude. Seventeen significant digits always
suffice. -/
def shortest (x : Double) : Decimal :=
  let top := x.leadingExponent
  let grids := (List.range 17).map fun (n : Nat) => top - (n : Int)
  (grids.findSome? x.onGrid?).getD (x.gridNearest (top - 16))

end Double

end ConfigTree
