import ScriptTree.Grammar.Module

/-!
The choice between the rules, and programs as a whole.

Statements and operands stand inside each other, at most as deep as the options allow. So the
recursion between them runs on the depth that is left.
-/

namespace ScriptTree

namespace ParserM

/-- Whether a token of a kind can extend the operand before it. -/
def canExtend : TokenKind → Bool
  | .dot | .openBracket | .openParen | .operator | .assignmentOperator | .question | .comma
  | .arrow | .colon => true
  | _ => false

/-- A node that goes on from an operand, by the kind of the current token. -/
def extension (sub : Goal → ParserM Node) (kind : TokenKind) (operand : Node) : ParserM Node :=
  match kind with
  | .dot => memberAccess operand
  | .openBracket => computedAccess sub operand
  | .openParen => call sub operand
  | .operator => followingOperator sub operand
  | .assignmentOperator => assignment sub operand
  | .question => conditional sub operand
  | .comma => sequence sub operand
  | .arrow => arrowFromOperand sub operand
  | .colon => labeled sub operand
  | _ => reject Parser.unexpected

/-- A node that starts with the current token. -/
def opening (opensArrow : ParserM Bool) (sub : Goal → ParserM Node) (word : Token) :
    ParserM Node := do
  match word.kind with
  | .identifierName | .getKeyword | .setKeyword | .staticKeyword | .importOperator => identifier
  | .reservedWord => reservedWord
  | .numericLiteral | .stringLiteral | .booleanLiteral | .regexLiteral => literal
  | .backtick => template sub
  | .thisKeyword =>
    nextToken
    pure .thisExpression
  | .functionKeyword => function sub
  | .classKeyword => classDefinition sub
  | .newKeyword => construction sub
  | .yieldKeyword => yieldOperand sub
  | .ellipsis => spread sub
  | .openParen => openingParen opensArrow sub
  | .openBracket => array sub
  | .openBrace => if (← get).context.expectsBlock then block sub else object sub
  | .operator =>
    if word.value.toList.head? = some '/' then regexOperand
    else leadingOperator sub
  | .assignmentOperator =>
    if word.value.toList.head? = some '/' then regexOperand
    else reject Parser.unexpected
  | _ => reject Parser.unexpected

/-- A node that starts with the current token or, if an operand is being extended, that goes on from
the operand put aside last. -/
def node (opensArrow : ParserM Bool) (sub : Goal → ParserM Node) : ParserM Node := do
  let word ← token
  if (← get).context.isExtending && canExtend word.kind then
    let operand ← takeOperand
    extension sub word.kind operand
  else opening opensArrow sub word

/-- Extends an operand for as long as the current token continues it. -/
def extend (opensArrow : ParserM Bool) (sub : Goal → ParserM Node) (operand : Node) :
    Nat → ParserM Node
  | 0 => throw .outOfSteps
  | rounds + 1 => do
    let parser ← get
    match parser.lexer.current with
    | some word =>
      if !parser.context.isComplete operand && parser.context.admits operand word then
        putOperand operand
        let longer ← within (.extending operand.kind) (node opensArrow sub)
        extend opensArrow sub longer rounds
      else pure operand
    | none => pure operand

/-- An operand with all that continues it. -/
def operand (opensArrow : ParserM Bool) (sub : Goal → ParserM Node) : ParserM Node := do
  let first ← node opensArrow sub
  extend opensArrow sub first (← budget)

/-- A statement. What starts like none of the others is an operand. -/
def statement (sub : Goal → ParserM Node) : ParserM Node := do
  let word ← token
  match word.kind with
  | .openBrace => block sub
  | .semicolon => emptyStatement
  | .declarationKeyword => declarationStatement sub
  | .functionKeyword => function sub
  | .classKeyword => classDefinition sub
  | .ifKeyword => ifStatement sub
  | .forKeyword => forStatement sub
  | .whileKeyword => whileStatement sub
  | .doKeyword => doWhile sub
  | .switchKeyword => switchStatement sub
  | .returnKeyword => returnStatement sub
  | .continueKeyword | .breakKeyword => jump
  | .importKeyword => importDeclaration
  | .exportKeyword => exportStatement sub
  | .exportDefaultKeyword => exportDefault sub
  | _ => expressionStatement sub

/-- Parses a goal with room for a number of constructs inside each other. Every goal inside another
has a construct around it, so the limit on constructs is reached before the room is. -/
def goal (opensArrow : ParserM Bool) : Nat → Goal → ParserM Node
  | 0, _ => throw .outOfSteps
  | room + 1, .statement => statement (goal opensArrow room)
  | room + 1, .operand => operand opensArrow (goal opensArrow room)

/-- After a statement no operand may be left over. Where that is not an error, the operands are
dropped with a warning. -/
def settleOperands : ParserM Unit := do
  let parser ← get
  let count := parser.operands.length
  let offset := parser.lexer.marker
  if parser.operands.isEmpty then pure ()
  else if parser.options.strictOperandStack then
    reject fun parser => .unconsumedOperands count offset (parser.locate offset)
  else
    let warning := Diagnostic.ofMessage .droppedOperands [toString count] (some ⟨offset, 0⟩)
    set { parser with operands := [], diagnostics := parser.diagnostics.add warning }

/-- The statements of a program, up to the last token. -/
def programBody (sub : Goal → ParserM Node) : Nat → ParserM (List Node)
  | 0 => throw .outOfSteps
  | rounds + 1 => do
    if (← current).isNone then pure []
    else
      let first ← statementAt sub .program .body
      settleOperands
      let others ← programBody sub rounds
      pure (first :: others)

/-- A program. It must go on to the end of the text. -/
def program (opensArrow : ParserM Bool) : ParserM Node := do
  nextToken
  let parser ← get
  let body ← programBody (goal opensArrow parser.options.maxDepth) parser.budget
  if (← get).lexer.exhausted then pure (.program body)
  else reject Parser.invalidCharacter

end ParserM

namespace Parser

/-- Parses a program from where the parser stands. The parser can be used again afterwards, with
what the call has left behind. -/
def run (parser : Parser) : Except Failure Node × Parser :=
  match ParserM.program ParserM.arrowAhead parser with
  | .ok program parser => (.ok program, parser)
  | .error failure parser => (.error failure, parser)

/-- Takes the warnings out of a parser. -/
def takeDiagnostics (parser : Parser) : DiagnosticList × Parser :=
  (parser.diagnostics, { parser with diagnostics := .empty })

end Parser

/-- Parses a text as a program. -/
def Node.ofSourceWith (options : ParserOptions) (source : String) : Except Failure Node :=
  (Parser.ofText source options).run.1

/-- Parses a text as a program, with default options. -/
def Node.ofSource (source : String) : Except Failure Node := ofSourceWith {} source

end ScriptTree
