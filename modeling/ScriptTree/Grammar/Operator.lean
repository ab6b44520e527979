import ScriptTree.Token.Lexer
import ScriptTree.Tree.Node

/-!
Classes of operators. Binary operators bind with strength 5 to 15, unary ones with 16.
-/

namespace ScriptTree

namespace Operator

/-- The strength of unary operators. -/
def unaryStrength : Nat := 16

/-- The least strength of a binary operator. -/
def leastStrength : Nat := 5

/-- The strength of a token as a binary operator. -/
def binaryStrength? (token : Token) : Option Nat :=
  if token.kind = .operator then
    token.precedence.filter fun strength =>
      decide (leastStrength ≤ strength) && decide (strength < unaryStrength)
  else none

/-- Operators that group from the right. -/
def groupsRight (operator : String) : Bool := operator == "**"

/-- Operators spelled with `&` or `|`. -/
def isLogical (operator : String) : Bool :=
  operator.toList.any fun c => c == '&' || c == '|'

/-- Increment and decrement. -/
def isUpdate (operator : String) : Bool := operator == "++" || operator == "--"

/-- Operators that may stand before their operand. -/
def isLeading (operator : String) : Bool :=
  ["!", "~", "+", "-", "typeof", "void", "delete"].contains operator || isUpdate operator

/-- Which family of binary operators an operator belongs to. -/
def role (operator : String) : BinaryRole := if isLogical operator then .logical else .arithmetic

end Operator

end ScriptTree
