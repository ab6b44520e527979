import ScriptTree.Number.Binary64

/-!
The value of a numeric literal: decimal notation with fraction and exponent, or an integer of radix
16, 8 or 2 that fits in 64 bits.
-/

namespace ScriptTree

namespace Numeral

/-- The value of a digit of any radix up to 16. -/
def digitValue (c : Char) : Nat :=
  if c.isDigit then c.toNat - '0'.toNat
  else if 'a' ≤ c ∧ c ≤ 'f' then c.toNat - 'a'.toNat + 10
  else if 'A' ≤ c ∧ c ≤ 'F' then c.toNat - 'A'.toNat + 10
  else 0

/-- The value of a row of digits. -/
def digitsValue (radix : Nat) (digits : List Char) : Nat :=
  digits.foldl (fun value digit => value * radix + digitValue digit) 0

/-- The radix that a letter after a leading zero stands for. -/
def radixOf? (marker : Char) : Option Nat :=
  if marker = 'x' ∨ marker = 'X' then some 16
  else if marker = 'o' ∨ marker = 'O' then some 8
  else if marker = 'b' ∨ marker = 'B' then some 2
  else none

/-- The number nearest to `digits * 10 ^ exponent`. Far beyond the range of the format nothing is
computed: there the result is zero or infinite. -/
def ofScientific (digits : Nat) (exponent : Int) : Binary64 :=
  let size : Int := (Nat.toDigits 10 digits).length
  if digits = 0 ∨ size + exponent < -400 then .zero
  else if 400 < size + exponent then .infinity
  else if 0 ≤ exponent then .ofRatio (digits * Nat.pow 10 exponent.toNat) 1
  else .ofRatio digits (Nat.pow 10 (-exponent).toNat)

/-- The exponent of a decimal numeral, from the text behind its mantissa. -/
def exponentValue : List Char → Int
  | _ :: '-' :: digits => -(digitsValue 10 digits : Int)
  | _ :: '+' :: digits => digitsValue 10 digits
  | _ :: digits => digitsValue 10 digits
  | [] => 0

/-- The value of a decimal numeral. -/
def decimalValue (text : List Char) : Binary64 :=
  let whole := text.takeWhile Char.isDigit
  let afterWhole := text.dropWhile Char.isDigit
  let (fraction, afterFraction) := match afterWhole with
    | '.' :: rest => (rest.takeWhile Char.isDigit, rest.dropWhile Char.isDigit)
    | rest => ([], rest)
  ofScientific (digitsValue 10 (whole ++ fraction)) (exponentValue afterFraction - fraction.length)

/-- The value of a numeric literal; none for an integer of another radix that needs more than 64
bits. -/
def value? (text : List Char) : Option Binary64 :=
  match text with
  | '0' :: marker :: digits =>
    match radixOf? marker with
    | some radix =>
      let value := digitsValue radix digits
      if value < Binary64.twoPow 64 then some (.ofRatio value 1) else none
    | none => some (decimalValue text)
  | _ => some (decimalValue text)

end Numeral

end ScriptTree
