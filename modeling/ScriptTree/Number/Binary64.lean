/-!
Double-precision numbers as 64-bit words, and correct rounding of a ratio to one of them.

A finite number is `significand * 2 ^ (scale - 1074)`, up to its sign. All arithmetic is exact, on
natural numbers.
-/

namespace ScriptTree

/-- A number in the IEEE 754 binary64 format. -/
structure Binary64 where
  /-- Sign, exponent and fraction, from the highest bit to the lowest. -/
  bits : UInt64
  deriving DecidableEq, Repr, Inhabited

namespace Binary64

/-- A power of two. -/
def twoPow (exponent : Nat) : Nat := Nat.pow 2 exponent

/-- The word without its sign bit. -/
def magnitude (x : Binary64) : Nat := x.bits.toNat % twoPow 63

/-- Whether the sign bit is set. -/
def isNegative (x : Binary64) : Bool := decide (twoPow 63 ≤ x.bits.toNat)

/-- The magnitude of the infinities. -/
def infiniteMagnitude : Nat := 0x7FF * twoPow 52

/-- Neither infinite nor a NaN. -/
def isFinite (x : Binary64) : Bool := decide (x.magnitude < infiniteMagnitude)

/-- Not a number. -/
def isNaN (x : Binary64) : Bool := decide (infiniteMagnitude < x.magnitude)

/-- Zero of either sign. -/
def isZero (x : Binary64) : Bool := x.magnitude == 0

/-- Equality of numbers: both zeros are equal, and a NaN equals nothing. -/
def equals (x y : Binary64) : Bool :=
  !x.isNaN && !y.isNaN && (x.bits == y.bits || (x.isZero && y.isZero))

/-- The exponent of a finite number, counted from that of the least unit, `2 ^ (-1074)`. -/
def scale (x : Binary64) : Nat := x.magnitude / twoPow 52 - 1

/-- The integer significand of a finite number. -/
def significand (x : Binary64) : Nat :=
  if x.magnitude < twoPow 52 then x.magnitude else x.magnitude % twoPow 52 + twoPow 52

/-- The number with a given magnitude and no sign. -/
def ofMagnitude (magnitude : Nat) : Binary64 := ⟨magnitude.toUInt64⟩

/-- Positive zero. -/
def zero : Binary64 := ofMagnitude 0

/-- Positive infinity. -/
def infinity : Binary64 := ofMagnitude infiniteMagnitude

/-- The quotient of two naturals rounded to the nearest integer, a half to the even one. -/
def roundDiv (numerator denominator : Nat) : Nat :=
  let quotient := numerator / denominator
  let remainder := numerator % denominator
  if denominator < 2 * remainder ∨ (denominator = 2 * remainder ∧ quotient % 2 = 1) then
    quotient + 1
  else
    quotient

/-- The number nearest to a ratio, of two equally near ones the one with even significand. What
lies beyond the largest number by half a unit or more is infinite. A significand that rounds up to
the next power of two carries into the exponent. -/
def ofRatio (numerator denominator : Nat) : Binary64 :=
  let scaled := numerator * twoPow 1074
  let scale := (scaled / denominator).log2 + 1 - 53
  let significand := roundDiv scaled (denominator * twoPow scale)
  ofMagnitude (min (scale * twoPow 52 + significand) infiniteMagnitude)

end Binary64

end ScriptTree
