import ScriptTree.Grammar.Parser

/-!
Whether an opening parenthesis starts the parameters of an arrow function. The tokens are read ahead
up to the closing parenthesis: an arrow behind it decides. The parentheses that are passed on the
way are decided too, and the answers are kept.
-/

namespace ScriptTree

/-- The state of reading ahead from a parenthesis. -/
structure Lookahead where
  /-- Offsets of the parentheses still open, innermost first. -/
  openParens : List Nat
  /-- The parenthesis that the last token closed; the next token decides it. -/
  closed : Option Nat
  /-- The number of open braces. -/
  braces : Nat
  /-- The number of braces around each open template substitution, innermost first. -/
  substitutions : List Nat
  /-- The mode for the next token. -/
  mode : LexerMode
  /-- The answers, newest first. -/
  decided : List (Nat × Bool)

namespace Lookahead

/-- Reading ahead from behind a parenthesis, with the answers known so far. -/
def ofParen (offset : Nat) (decided : List (Nat × Bool)) : Lookahead :=
  ⟨[offset], none, 0, [], .default, decided⟩

/-- The next token decides the parenthesis closed before it. -/
def decideClosed (ahead : Lookahead) (token : Token) : Lookahead :=
  { ahead with
    closed := none
    mode := .default
    decided :=
      (ahead.closed.toList.map fun offset => (offset, token.kind == .arrow)) ++ ahead.decided }

/-- Whether template text ends with the opening of a substitution. -/
def opensSubstitution (raw : String) : Bool := ['$', '\x7b'].isSuffixOf raw.toList

/-- Follows the brackets and the templates of the text through a token. -/
def follow (ahead : Lookahead) (token : Token) : Lookahead :=
  match token.kind with
  | .openParen => { ahead with openParens := token.start :: ahead.openParens }
  | .closeParen =>
    { ahead with closed := ahead.openParens.head?, openParens := ahead.openParens.tail }
  | .openBrace => { ahead with braces := ahead.braces + 1 }
  | .closeBrace =>
    if ahead.substitutions.head? = some ahead.braces then
      { ahead with substitutions := ahead.substitutions.tail, mode := .templateText }
    else { ahead with braces := ahead.braces - 1 }
  | .backtick => { ahead with mode := .templateText }
  | .templateChunk =>
    if opensSubstitution token.raw then
      { ahead with substitutions := ahead.braces :: ahead.substitutions }
    else ahead
  | _ => ahead

/-- Reads on until the first parenthesis is decided or there are no more tokens. -/
def scan : Nat → Lookahead → Lexer → Lookahead
  | 0, ahead, _ => ahead
  | rounds + 1, ahead, lexer =>
    let lexer := lexer.next ahead.mode
    match lexer.current with
    | none => ahead
    | some token =>
      let ahead := ahead.decideClosed token
      if ahead.openParens.isEmpty then ahead else scan rounds (ahead.follow token) lexer

/-- The answers in the end. No arrow follows what is still undecided. -/
def answers (ahead : Lookahead) : List (Nat × Bool) :=
  ((ahead.closed.toList ++ ahead.openParens).map fun offset => (offset, false)) ++ ahead.decided

end Lookahead

namespace ParserM

/-- Reads ahead from the parenthesis at the current token. The stream of tokens stays where it
is. -/
def lookAhead (parser : Parser) (offset : Nat) (decided : List (Nat × Bool)) : List (Nat × Bool) :=
  (Lookahead.scan parser.budget (.ofParen offset decided) parser.lexer).answers

/-- Whether the parenthesis at the current token starts an arrow function. Answers are kept, so no
parenthesis is asked about twice. -/
def arrowAhead : ParserM Bool := do
  let parser ← get
  match parser.lexer.current with
  | none => pure false
  | some token =>
    match parser.arrowAnswers.lookup token.start with
    | some answer => pure answer
    | none =>
      let decided := lookAhead parser token.start parser.arrowAnswers
      modify fun parser => { parser with arrowAnswers := decided }
      pure ((decided.lookup token.start).getD false)

/-- Whether the parenthesis at the current token starts an arrow function, found out anew. -/
def arrowAheadAnew : ParserM Bool := do
  let parser ← get
  match parser.lexer.current with
  | none => pure false
  | some token => pure (((lookAhead parser token.start []).lookup token.start).getD false)

end ParserM

end ScriptTree
