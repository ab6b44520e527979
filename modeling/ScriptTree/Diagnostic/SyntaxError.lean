import ScriptTree.Diagnostic.Message
import ScriptTree.Kind
import ScriptTree.Text.Location

/-!
The error that ends the reading of a text.
-/

namespace ScriptTree

/-- Why and where the reading of a text failed. -/
structure SyntaxError where
  /-- What is wrong. -/
  message : Message
  /-- What the message speaks of. -/
  arguments : List String
  /-- The kind of the offending token, if there is one. -/
  token : Option Kind
  /-- The offset it is reported at. -/
  offset : Nat
  /-- The line and column of that offset. -/
  location : Location
  deriving DecidableEq, Repr

namespace SyntaxError

/-- The wording of the error. -/
def text (error : SyntaxError) : String := error.message.text error.arguments

/-- The number of its message. -/
def code (error : SyntaxError) : Nat := error.message.code

/-- The wording with its location, as shown to users. -/
def display (error : SyntaxError) : String := error.text ++ " (" ++ error.location.text ++ ")"

/-- A token that cannot stand where it is. -/
def unexpectedToken (text : String) (token : Kind) (offset : Nat) (location : Location) :
    SyntaxError :=
  ⟨.unexpectedToken, [text], some token, offset, location⟩

/-- A text that ended too early. -/
def unexpectedEnd (offset : Nat) (location : Location) : SyntaxError :=
  ⟨.unexpectedEnd, [], none, offset, location⟩

/-- Something else was needed than what was found, which is nothing at the end of the text. -/
def expected (wanted : String) (found : Option (String × Kind)) (offset : Nat)
    (location : Location) : SyntaxError :=
  match found with
  | some (text, token) => ⟨.expectedButFound, [wanted, text], some token, offset, location⟩
  | none => ⟨.expectedAtEnd, [wanted], none, offset, location⟩

/-- Operands that no construct took. -/
def unconsumedOperands (count offset : Nat) (location : Location) : SyntaxError :=
  ⟨.unconsumedOperands, [toString count], none, offset, location⟩

/-- More constructs inside each other than the limit allows. -/
def nestingTooDeep (limit offset : Nat) (location : Location) : SyntaxError :=
  ⟨.nestingTooDeep, [toString limit], none, offset, location⟩

/-- A character that starts no token. -/
def invalidCharacter (c : Char) (offset : Nat) (location : Location) : SyntaxError :=
  ⟨.invalidCharacter, [String.singleton c], none, offset, location⟩

end SyntaxError

end ScriptTree
