import ScriptTree.Diagnostic.Basic
import ScriptTree.Diagnostic.SyntaxError
import ScriptTree.Grammar.Frame
import ScriptTree.Grammar.Options

/-!
The state of a parse and the steps that every grammar rule is made of.
-/

namespace ScriptTree

/-- The state of a parse. -/
structure Parser where
  /-- The stream of tokens. -/
  lexer : Lexer
  /-- The constructs in progress, innermost first. -/
  context : Context
  /-- Finished operands that wait to be extended, newest first. -/
  operands : List Node
  /-- Parameters of the arrow functions in progress, newest first. -/
  pendingParams : List Node
  /-- For opening parentheses by offset, whether an arrow follows the closing one. -/
  arrowAnswers : List (Nat × Bool)
  /-- The options. -/
  options : ParserOptions
  /-- Warnings so far. -/
  diagnostics : DiagnosticList
  /-- A bound on the rounds of any loop over the text. Each round uses up a character. -/
  budget : Nat

/-- Why a parse ends without a tree. -/
inductive Failure where
  /-- The text is no program. -/
  | rejected (error : SyntaxError)
  /-- A loop has used up its budget. -/
  | outOfSteps
  deriving DecidableEq, Repr

/-- A step of a parse. The state outlives a failure. -/
abbrev ParserM : Type → Type := EStateM Failure Parser

/-- What can be parsed inside a construct. -/
inductive Goal where
  /-- A statement. -/
  | statement
  /-- An operand with all that continues it. -/
  | operand
  deriving DecidableEq, Repr

namespace Parser

/-- The parser of a text. -/
def ofText (source : String) (options : ParserOptions) : Parser :=
  let text := source.toList
  { lexer := .ofText text
    context := []
    operands := []
    pendingParams := []
    arrowAnswers := []
    options
    diagnostics := .empty
    budget := 2 * text.length + 4 }

/-- The line and column of an offset. -/
def locate (parser : Parser) (offset : Nat) : Location :=
  (LineTable.ofText parser.lexer.source).locate offset

/-- The error for text that no lexical rule matches. It names the next character that is not
blank. -/
def invalidCharacter (parser : Parser) : SyntaxError :=
  let offset := (parser.lexer.cursor.skipBlank isUnicodeBlank).offset
  match parser.lexer.upcoming? with
  | some c => .invalidCharacter c offset (parser.locate offset)
  | none => .unexpectedEnd offset (parser.locate offset)

/-- The error for a current token that cannot stand here, or for its absence. -/
def unexpected (parser : Parser) : SyntaxError :=
  let offset := parser.lexer.marker
  match parser.lexer.current with
  | some token => .unexpectedToken token.raw (.token token.kind) offset (parser.locate offset)
  | none =>
    if parser.lexer.exhausted then .unexpectedEnd offset (parser.locate offset)
    else parser.invalidCharacter

/-- The error for a current token other than what is needed. -/
def wanting (parser : Parser) (wanted : String) : SyntaxError :=
  let offset := parser.lexer.marker
  match parser.lexer.current with
  | some token =>
    .expected wanted (some (token.raw, .token token.kind)) offset (parser.locate offset)
  | none =>
    if parser.lexer.exhausted then .expected wanted none offset (parser.locate offset)
    else parser.invalidCharacter

/-- The error with a given message about the current token. -/
def complaint (parser : Parser) (message : Message) : SyntaxError :=
  match parser.lexer.current with
  | some token =>
    ⟨message, [token.raw], some (.token token.kind), token.start, parser.locate token.start⟩
  | none => parser.unexpected

end Parser

namespace ParserM

/-- Fails with an error of the present state. -/
def reject {α : Type} (error : Parser → SyntaxError) : ParserM α :=
  fun parser => .error (.rejected (error parser)) parser

/-- The current token, if there is one. -/
def current : ParserM (Option Token) := do return (← get).lexer.current

/-- The current token; its absence is an error. -/
def token : ParserM Token := do
  match ← current with
  | some token => pure token
  | none => reject Parser.unexpected

/-- Changes the stream of tokens. -/
def modifyLexer (change : Lexer → Lexer) : ParserM Unit :=
  modify fun parser => { parser with lexer := change parser.lexer }

/-- Goes on to the next token in a mode, and returns it. -/
def nextTokenIn (mode : LexerMode) : ParserM (Option Token) := do
  modifyLexer fun lexer => lexer.next mode
  current

/-- Goes on to the next token. -/
def nextToken : ParserM Unit := modifyLexer fun lexer => lexer.next .default

/-- Reads the current token again in a mode, and returns it. -/
def reread (mode : LexerMode) : ParserM (Option Token) := do
  modifyLexer fun lexer => lexer.reread mode
  current

/-- Whether the current token is of a kind. -/
def isAt (kind : TokenKind) : ParserM Bool := do
  return (← current).any fun token => token.kind == kind

/-- Whether the current token has a kind and a value. -/
def isAtText (kind : TokenKind) (text : String) : ParserM Bool := do
  return (← current).any fun token => token.isText kind text

/-- Steps over the current token if it is of a kind. -/
def accept (kind : TokenKind) : ParserM Bool := do
  if ← isAt kind then
    nextToken
    pure true
  else pure false

/-- Steps over the current token if it has a kind and a value. -/
def acceptText (kind : TokenKind) (text : String) : ParserM Bool := do
  if ← isAtText kind text then
    nextToken
    pure true
  else pure false

/-- Steps over a token of a kind, which must be there. -/
def require (kind : TokenKind) : ParserM Unit := do
  if ← isAt kind then nextToken
  else reject fun parser => parser.wanting kind.wanted

/-- Steps over a token with a kind and a value, which must be there. -/
def requireText (kind : TokenKind) (text : String) : ParserM Unit := do
  if ← isAtText kind text then nextToken
  else reject fun parser => parser.wanting text

/-- Runs a step inside a construct. There may not be more of them inside each other than the options
allow, and the construct is left again whatever the step comes to. -/
def within {α : Type} (frame : Frame) (step : ParserM α) : ParserM α := fun parser =>
  if parser.options.maxDepth ≤ parser.context.length then
    let limit := parser.options.maxDepth
    let offset := parser.lexer.marker
    .error (.rejected (.nestingTooDeep limit offset (parser.locate offset))) parser
  else
    match step { parser with context := frame :: parser.context } with
    | .ok result parser => .ok result { parser with context := parser.context.tail }
    | .error failure parser => .error failure { parser with context := parser.context.tail }

/-- Puts an operand aside for the step that extends it. -/
def putOperand (operand : Node) : ParserM Unit :=
  modify fun parser => { parser with operands := operand :: parser.operands }

/-- Takes up the operand that is to be extended. -/
def takeOperand : ParserM Node := do
  match (← get).operands with
  | operand :: operands =>
    modify fun parser => { parser with operands }
    pure operand
  | [] => reject fun parser => parser.complaint .missingLeftOperand

/-- The bound on the rounds of a loop. -/
def budget : ParserM Nat := do return (← get).budget

/-- Items with commas between them, up to a closing token. A comma may stand behind the last one. -/
def commaList {α : Type} (close : TokenKind) (item : ParserM α) : Nat → ParserM (List α)
  | 0 => throw .outOfSteps
  | rounds + 1 => do
    if ← isAt close then pure []
    else
      let first ← item
      if ← accept .comma then
        let others ← commaList close item rounds
        pure (first :: others)
      else pure [first]

/-- Items one after the other, for as long as the current token, which may be absent, allows. -/
def manyWhile {α : Type} (goesOn : Option Token → Bool) (item : ParserM α) :
    Nat → ParserM (List α)
  | 0 => throw .outOfSteps
  | rounds + 1 => do
    if goesOn (← current) then
      let first ← item
      let others ← manyWhile goesOn item rounds
      pure (first :: others)
    else pure []

/-- Items with commas between them in a closed construct, its closing token included. -/
def closedList {α : Type} (close : TokenKind) (item : ParserM α) : ParserM (List α) := do
  let items ← commaList close item (← budget)
  require close
  pure items

/-- Whether there is no current token of a kind. -/
def isNot (kind : TokenKind) (token : Option Token) : Bool :=
  !token.any fun token => token.kind == kind

/-- An operand in a part of a construct. -/
def operandAt (sub : Goal → ParserM Node) (kind : NodeKind) (slot : Slot) : ParserM Node :=
  within (.filling kind slot) (sub .operand)

/-- A statement in a part of a construct. -/
def statementAt (sub : Goal → ParserM Node) (kind : NodeKind) (slot : Slot) : ParserM Node :=
  within (.filling kind slot) (sub .statement)

/-- The names of identifiers and all words that may be read as one where only a name can stand. -/
def canBeName (token : Token) : Bool :=
  token.kind == .identifierName || token.kind.isKeyword ||
    (token.kind == .operator && token.value.toList.all Char.isAlpha)

/-- The current token read as a name, whatever it means elsewhere. -/
def name : ParserM Node := do
  let word ← token
  if canBeName word then
    let again ← reread .names
    nextToken
    pure (.identifier (again.getD word).value)
  else reject fun parser => parser.complaint .identifierExpected

/-- The current token as an identifier. -/
def identifier : ParserM Node := do
  let word ← token
  nextToken
  pure (.identifier word.value)

end ParserM

end ScriptTree
