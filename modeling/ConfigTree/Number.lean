import ConfigTree.Number.Shortest

/-!
# Numbers

A number of a document is an integer that fits 64 bits, signed or unsigned, or a finite
double. The two kinds stay apart: an integer and a double of equal value are different
numbers and are written differently, `1` and `1.0`.

`ConfigTree.Number.text` writes a number. How a double is laid out – from which exponent
on the notation is scientific – is the record `ConfigTree.Number.layout`; which digits are
written is `ConfigTree.Double.shortest`.
-/

namespace ConfigTree

/-- An integer that fits 64 bits, signed or unsigned. -/
structure Integer64 where
  /-- The integer itself. -/
  value : Int
  /-- At least the least signed and at most the greatest unsigned one. -/
  inRange : -0x8000000000000000 ≤ value ∧ value < 0x10000000000000000 := by omega
deriving DecidableEq

/-- A number of a document. -/
inductive Number
  /-- An integer within 64 bits. -/
  | integer (n : Integer64)
  /-- A finite double. -/
  | double (x : Double)
deriving DecidableEq

namespace Number

/-- The integer zero. -/
def zero : Number := .integer ⟨0, by omega⟩

/-- **Integers by magnitude**: a non-negative one stays an integer below `2 ^ 64`, a
negative one down to `-2 ^ 63`; beyond these it becomes the nearest double, and there is
none when that is out of range too. -/
def ofMagnitude? (negative : Bool) (magnitude : Nat) : Option Number :=
  if negative then
    if h : magnitude ≤ 0x8000000000000000 then some (.integer ⟨-magnitude, by omega⟩)
    else (Double.ofRatio? true magnitude 1).map .double
  else
    if h : magnitude < 0x10000000000000000 then some (.integer ⟨magnitude, by omega⟩)
    else (Double.ofRatio? false magnitude 1).map .double

/-! ### Text -/

/-- How doubles are laid out: the range of exponents of the first digit that are written in
positional notation. -/
structure DoubleLayout where
  /-- The least exponent in positional notation. -/
  least : Int
  /-- The greatest exponent in positional notation. -/
  greatest : Int

/-- Doubles from `10 ^ (-5)` up to but not including `10 ^ 16` are positional. -/
def layout : DoubleLayout := ⟨-5, 15⟩

/-- The decimal digits of a natural number. -/
def digits (n : Nat) : List Char := Nat.toDigits 10 n

/-- Digits without the zeros at their end. -/
def trimZeros (ds : List Char) : List Char := (ds.reverse.dropWhile (· = '0')).reverse

/-- Positional notation of `0.d₁d₂… * 10 ^ (exponent + 1)`, with at least one digit on each
side of the point. -/
def positional (ds : List Char) (exponent : Int) : List Char :=
  if exponent < 0 then
    ['0', '.'] ++ List.replicate (-exponent - 1).toNat '0' ++ ds
  else
    let n := exponent.toNat + 1
    let whole := ds.take n ++ List.replicate (n - ds.length) '0'
    let part := ds.drop n
    whole ++ '.' :: (if part = [] then ['0'] else part)

/-- Scientific notation: one digit, the point and the other digits if there are any, and
the exponent with its sign. -/
def scientific (ds : List Char) (exponent : Int) : List Char :=
  let mantissa := match ds with
    | d :: rest@(_ :: _) => d :: '.' :: rest
    | ds => ds
  mantissa ++ ['e', if exponent < 0 then '-' else '+'] ++ digits exponent.natAbs

/-- The text of a magnitude that is not zero. -/
def magnitudeText (x : Double) : List Char :=
  let d := x.shortest
  let ds := digits d.digits
  let exponent := d.exponent + ds.length - 1
  if layout.least ≤ exponent ∧ exponent ≤ layout.greatest then positional (trimZeros ds) exponent
  else scientific (trimZeros ds) exponent

/-- The text of an integer. -/
def integerText (n : Int) : List Char :=
  if n < 0 then '-' :: digits n.natAbs else digits n.natAbs

/-- The text of a double; zero keeps its sign. -/
def doubleText (x : Double) : List Char :=
  let magnitude := if (x.rank : Nat) = 0 then ['0', '.', '0'] else magnitudeText x
  if x.negative then '-' :: magnitude else magnitude

/-- **The text of a number.** -/
def text : Number → List Char
  | .integer n => integerText n.value
  | .double x => doubleText x

end Number

end ConfigTree
