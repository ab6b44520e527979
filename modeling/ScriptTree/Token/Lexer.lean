import ScriptTree.Token.Rule

/-!
The stream of tokens. Tokens are asked for one at a time, each in a mode of its own. The stream
remembers where each token started, so it can step back and read a token again in another mode.
-/

namespace ScriptTree

/-- A token. -/
structure Token where
  /-- Its kind. -/
  kind : TokenKind
  /-- The part that carries its meaning, such as the contents of a string. -/
  value : String
  /-- Its whole text. -/
  raw : String
  /-- The offset of its first byte. -/
  start : Nat
  /-- The offset behind its last byte. -/
  stop : Nat
  /-- How tightly it binds, for operators. -/
  precedence : Option Nat
  /-- Whether a line feed was passed over before it. -/
  afterNewline : Bool
  deriving DecidableEq, Repr

/-- Whether a token has a kind and a value. -/
def Token.isText (token : Token) (kind : TokenKind) (text : String) : Bool :=
  token.kind == kind && token.value == text

/-- What the stream remembers of a token that it handed out. -/
structure TokenRecord where
  /-- Where the token started. -/
  start : Cursor
  /-- Whether an operand ended with it. -/
  closesOperand : Bool
  deriving DecidableEq, Repr

/-- A stream of tokens over a text. -/
structure Lexer where
  /-- The whole text. -/
  source : List Char
  /-- The place behind the current token. -/
  cursor : Cursor
  /-- The token that was asked for last, if there was one. -/
  current : Option Token
  /-- The tokens handed out, newest first. -/
  history : List TokenRecord
  /-- Whether the last request came to the end of the text. -/
  exhausted : Bool
  deriving DecidableEq, Repr

/-- A state of a stream to which it can be set back. -/
structure Bookmark where
  /-- The place in the text. -/
  cursor : Cursor
  /-- The current token. -/
  current : Option Token
  /-- How many tokens had been handed out. -/
  emitted : Nat
  /-- Whether the end had been reached. -/
  exhausted : Bool
  deriving DecidableEq, Repr

/-- What is found ahead, white space and comments passed over. -/
inductive Sighting where
  /-- A token: where it starts, its parts, and whether a line feed was passed over. -/
  | token (start : Cursor) (kind : TokenKind) (lexeme : Lexeme) (precedence : Option Nat)
      (newline : Bool)
  /-- Text that no rule matches. -/
  | stuck (place : Cursor)
  /-- The end of the text. -/
  | finished (place : Cursor)

namespace Lexer

/-- The stream in front of a text. -/
def ofText (source : List Char) : Lexer := ⟨source, .ofText source, none, [], false⟩

/-- Whether an operand ended with the last token. -/
def afterOperand (lexer : Lexer) : Bool :=
  match lexer.history with
  | [] => false
  | last :: _ => last.closesOperand

/-- Whether a piece of trivia is a block comment that counts as the end of a line. -/
def endsLine (mode : LexerMode) (kind : TokenKind) (raw : List Char) : Bool :=
  mode.significantNewline && kind == .comment && (afterSpelling? ['/', '*'] raw).isSome &&
    raw.contains '\n'

/-- Looks ahead for a token. Trivia are never empty, so as much fuel as there are characters is
enough. -/
def seek (mode : LexerMode) (afterOperand : Bool) : Nat → Cursor → Bool → Sighting
  | 0, place, _ => .finished place
  | fuel + 1, place, newline =>
    if place.rest.isEmpty then .finished place
    else match Rule.first? mode afterOperand place.rest with
      | none => .stuck place
      | some (rule, lexeme) =>
        if rule.kind.isTrivia then
          if endsLine mode rule.kind lexeme.raw then
            .token place .semicolon (.whole lexeme.raw) none newline
          else
            seek mode afterOperand fuel (place.advance lexeme.raw)
              (newline || lexeme.raw.contains '\n')
        else
          .token place rule.kind lexeme rule.precedence newline

/-- Whether an operand ends with a token: by its kind, as an increment or decrement behind an
operand on the same line, or as the last piece of a template. -/
def tokenClosesOperand (afterOperand : Bool) (kind : TokenKind) (lexeme : Lexeme) (newline : Bool) :
    Bool :=
  kind.closesOperand ||
    (afterOperand && !newline && (lexeme.value == ['+', '+'] || lexeme.value == ['-', '-'])) ||
    (kind == .templateChunk && lexeme.raw.getLast? == some '\x60')

/-- Hands out a token. -/
def emit (lexer : Lexer) (start : Cursor) (kind : TokenKind) (lexeme : Lexeme)
    (precedence : Option Nat) (newline : Bool) : Lexer :=
  let cursor := start.advance lexeme.raw
  let token : Token :=
    { kind, value := String.ofList lexeme.value, raw := String.ofList lexeme.raw,
      start := start.offset, stop := cursor.offset, precedence, afterNewline := newline }
  { lexer with
    cursor
    current := some token
    history := ⟨start, tokenClosesOperand lexer.afterOperand kind lexeme newline⟩ :: lexer.history
    exhausted := false }

/-- Goes on to the next token. Afterwards there is no current token if the text has ended or no rule
matches; `exhausted` tells the two apart. -/
def next (lexer : Lexer) (mode : LexerMode) : Lexer :=
  match seek mode lexer.afterOperand (lexer.cursor.rest.length + 1) lexer.cursor false with
  | .token start kind lexeme precedence newline => lexer.emit start kind lexeme precedence newline
  | .stuck place => { lexer with cursor := place, current := none, exhausted := false }
  | .finished place => { lexer with cursor := place, current := none, exhausted := true }

/-- Steps back to the token before the last one and reads it again in a mode; none if there are not
two tokens to step over. -/
def stepBack? (lexer : Lexer) (mode : LexerMode) : Option Lexer :=
  match lexer.history with
  | _ :: before :: history => some ({ lexer with cursor := before.start, history }.next mode)
  | _ => none

/-- Reads the current token again in a mode. If there is none, this goes on like `next`. -/
def reread (lexer : Lexer) (mode : LexerMode) : Lexer :=
  match lexer.current, lexer.history with
  | some _, last :: history => { lexer with cursor := last.start, history }.next mode
  | _, _ => lexer.next mode

/-- The present state, for a later `returnTo`. -/
def bookmark (lexer : Lexer) : Bookmark :=
  ⟨lexer.cursor, lexer.current, lexer.history.length, lexer.exhausted⟩

/-- Sets the stream back. Tokens handed out since the bookmark are forgotten. -/
def returnTo (lexer : Lexer) (bookmark : Bookmark) : Lexer :=
  { lexer with
    cursor := bookmark.cursor
    current := bookmark.current
    history := lexer.history.drop (lexer.history.length - bookmark.emitted)
    exhausted := bookmark.exhausted }

/-- The offset that errors are reported at: the start of the current token, or the cursor if there
is none. -/
def marker (lexer : Lexer) : Nat :=
  match lexer.current with
  | some token => token.start
  | none => lexer.cursor.offset

/-- The first character behind the cursor that is not blank. -/
def upcoming? (lexer : Lexer) : Option Char := lexer.cursor.rest.find? fun c => !isUnicodeBlank c

/-- Reads tokens in one mode until there are no more; returns them with the final stream. -/
def collect (mode : LexerMode) : Nat → Lexer → List Token × Lexer
  | 0, lexer => ([], lexer)
  | fuel + 1, lexer =>
    let lexer := lexer.next mode
    match lexer.current with
    | some token =>
      let (tokens, lexer) := collect mode fuel lexer
      (token :: tokens, lexer)
    | none => ([], lexer)

/-- All tokens of a text in one mode, and the final stream. A token is never empty, so there are no
more of them than characters. -/
def tokenize (source : List Char) (mode : LexerMode) : List Token × Lexer :=
  collect mode (source.length + 1) (ofText source)

end Lexer

end ScriptTree
