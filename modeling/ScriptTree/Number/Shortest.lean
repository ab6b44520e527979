import ScriptTree.Number.Binary64

/-!
The shortest decimal that reads back as a given number, written without exponent.
-/

namespace ScriptTree

namespace Binary64

/-- The decimal `digits * 10 ^ exponent`. -/
structure Decimal where
  /-- The digits, as one natural number. -/
  digits : Nat
  /-- The place of the last digit. -/
  exponent : Int
  deriving DecidableEq, Repr

/-- The reals that round to a positive finite number, in units of `2 ^ (-1076)`: the number itself,
and the ends of the interval, which belong to it if the significand is even. Below a power of two
the interval reaches only half as far. -/
structure Neighbourhood where
  /-- The number. -/
  value : Nat
  /-- The lower end. -/
  low : Nat
  /-- The upper end. -/
  high : Nat
  /-- Whether the ends belong to the interval. -/
  closed : Bool

/-- The neighbourhood of a positive finite number. -/
def neighbourhood (x : Binary64) : Neighbourhood :=
  let half := twoPow (x.scale + 1)
  let value := x.significand * twoPow (x.scale + 2)
  let below := if x.significand = twoPow 52 ∧ 0 < x.scale then half / 2 else half
  ⟨value, value - below, value + half, x.significand % 2 == 0⟩

/-- Whether `numerator / denominator` units lie in the interval. -/
def Neighbourhood.holds (n : Neighbourhood) (numerator denominator : Nat) : Bool :=
  if n.closed then
    decide (n.low * denominator ≤ numerator) && decide (numerator ≤ n.high * denominator)
  else
    decide (n.low * denominator < numerator) && decide (numerator < n.high * denominator)

/-- A decimal of the grid of step `10 ^ exponent` that rounds to the number: of its two neighbours
on the grid the nearer one, or the upper one if both are equally near. -/
def Neighbourhood.onGrid? (n : Neighbourhood) (exponent : Int) : Option Decimal :=
  let up := Nat.pow 10 (-exponent).toNat
  let step := twoPow 1076 * Nat.pow 10 exponent.toNat
  let lower := n.value * up / step
  let lowerFits := n.holds (lower * step) up
  let upperFits := n.holds ((lower + 1) * step) up
  if lowerFits && (!upperFits || decide (2 * (n.value * up - lower * step) < step)) then
    some ⟨lower, exponent⟩
  else if upperFits then
    some ⟨lower + 1, exponent⟩
  else
    none

/-- The first grid, from the coarser to the finer, that has a decimal for the number. -/
def Neighbourhood.search (n : Neighbourhood) : Nat → Int → Decimal
  | 0, exponent => (n.onGrid? exponent).getD ⟨0, 0⟩
  | more + 1, exponent => match n.onGrid? exponent with
    | some decimal => decimal
    | none => n.search more (exponent - 1)

/-- The shortest decimal that rounds to a positive finite number. Seventeen digits always do. -/
def shortest (x : Binary64) : Decimal :=
  let n := x.neighbourhood
  let size : Int := (Nat.toDigits 10 (n.value * Nat.pow 10 400 / twoPow 1076)).length
  n.search 17 (size - 401)

/-- Drops the zeros at the end of a fraction. -/
def trimFraction (digits : List Char) : List Char :=
  (digits.reverse.dropWhile (· == '0')).reverse

/-- A decimal written out in full, without exponent. -/
def Decimal.positional (decimal : Decimal) : List Char :=
  let digits := Nat.toDigits 10 decimal.digits
  if 0 ≤ decimal.exponent then
    digits ++ List.replicate decimal.exponent.toNat '0'
  else
    let places := (-decimal.exponent).toNat
    let padded := List.replicate (places + 1 - digits.length) '0' ++ digits
    let fraction := trimFraction (padded.drop (padded.length - places))
    let whole := padded.take (padded.length - places)
    if fraction.isEmpty then whole else whole ++ '.' :: fraction

/-- The text of a number: the shortest digits that read back, and words for what is not finite. -/
def text (x : Binary64) : String :=
  if x.isNaN then "NaN"
  else
    let sign := if x.isNegative then "-" else ""
    if !x.isFinite then sign ++ "inf"
    else if x.isZero then sign ++ "0"
    else sign ++ String.ofList x.shortest.positional

end Binary64

end ScriptTree
