import ScriptTree.Kind

/-!
Lexing modes: which rules may produce the next token.
-/

namespace ScriptTree

/-- What the reader of tokens asks for. -/
structure LexerMode where
  /-- Keywords are told apart from names. -/
  keywords : Bool
  /-- If given, only these kinds of tokens are looked for. -/
  expected : Option (List TokenKind)
  /-- Template text is read instead of tokens. -/
  template : Bool
  /-- A line feed is a token that ends a statement. -/
  significantNewline : Bool
  /-- A regular expression may start even where an operand has just ended. -/
  regex : Bool
  deriving DecidableEq, Repr

namespace LexerMode

/-- The ordinary mode. -/
def default : LexerMode := ⟨true, none, false, false, false⟩

/-- Keywords are read as names. -/
def names : LexerMode := { default with keywords := false }

/-- Template text is read. -/
def templateText : LexerMode := { default with template := true }

/-- Line feeds count. -/
def newlines : LexerMode := { default with significantNewline := true }

/-- Regular expressions may start anywhere. -/
def regexes : LexerMode := { default with regex := true }

/-- Only some kinds of tokens are looked for. -/
def expecting (kinds : List TokenKind) : LexerMode := { default with expected := some kinds }

/-- Whether the mode looks for a kind of token. Trivia are passed over in every mode. -/
def looksFor (mode : LexerMode) (kind : TokenKind) : Bool :=
  match mode.expected with
  | some kinds => kind.isTrivia || kinds.contains kind
  | none => true

end LexerMode

end ScriptTree
