import ScriptTree.Text.Cursor

/-!
What a lexical rule matches: a piece of text, of which a middle part is the value.
-/

namespace ScriptTree

/-- A match at the start of a text. -/
structure Lexeme where
  /-- What is matched before the value. -/
  lead : List Char
  /-- The value. -/
  value : List Char
  /-- What is matched behind the value. -/
  trail : List Char
  deriving DecidableEq, Repr

namespace Lexeme

/-- A match that is all value. -/
def whole (text : List Char) : Lexeme := ⟨[], text, []⟩

/-- The whole matched text. -/
def raw (lexeme : Lexeme) : List Char := lexeme.lead ++ lexeme.value ++ lexeme.trail

/-- The number of bytes matched. -/
def size (lexeme : Lexeme) : Nat := byteLength lexeme.raw

/-- The offset of the value in the match. -/
def valueStart (lexeme : Lexeme) : Nat := byteLength lexeme.lead

/-- The offset behind the value in the match. -/
def valueStop (lexeme : Lexeme) : Nat := byteLength (lexeme.lead ++ lexeme.value)

end Lexeme

end ScriptTree
