import ScriptTree.Grammar.ArrowHead
import ScriptTree.Number.Numeral

/-!
Operands, and the steps that extend a finished operand by an access, a call or an operator.

Each rule is given `sub`, which parses what stands inside it; a step that extends an operand is
given that operand too.
-/

namespace ScriptTree

namespace ParserM

/-- A number, a string, a truth value or a regular expression. -/
def literal : ParserM Node := do
  let word ← token
  let value ← match word.kind with
    | .numericLiteral =>
      match Numeral.value? word.raw.toList with
      | some number => pure (.number number)
      | none => reject fun parser => parser.complaint .invalidNumericLiteral
    | .stringLiteral => pure (.string word.value)
    | .booleanLiteral => pure (.boolean (word.value == "true"))
    | .regexLiteral => pure (.regex word.raw)
    | _ => reject Parser.unexpected
  nextToken
  pure (.literal value word.raw)

/-- `null`, a literal, or `undefined`, a name. -/
def reservedWord : ParserM Node := do
  let word ← token
  nextToken
  if word.value == "null" then pure (.literal .null word.raw)
  else pure (.identifier word.value)

/-- A slash where an operand must start. It was read as a division because an operand seemed to have
ended; read again, it must start a regular expression. -/
def regexOperand : ParserM Node := do
  match ← reread .regexes with
  | some word =>
    if word.kind = .regexLiteral then literal
    else reject fun parser => parser.complaint .missingLeftOperand
  | none => reject fun parser => parser.complaint .missingLeftOperand

/-- The pieces of a template from its backtick on: texts and the operands between them. -/
def templateParts (sub : Goal → ParserM Node) : Nat → ParserM (List Node × List Node)
  | 0 => throw .outOfSteps
  | rounds + 1 => do
    match ← nextTokenIn .templateText with
    | none => reject fun parser => parser.wanting "\x60"
    | some chunk =>
      let text := Node.templateElement chunk.value
      if Lookahead.opensSubstitution chunk.raw then
        nextToken
        let expression ← operandAt sub .templateLiteral .expressions
        if ← isAt .closeBrace then
          let (texts, expressions) ← templateParts sub rounds
          pure (text :: texts, expression :: expressions)
        else reject fun parser => parser.wanting "\x7d"
      else pure ([text], [])

/-- A template literal. -/
def template (sub : Goal → ParserM Node) : ParserM Node := do
  let (texts, expressions) ← templateParts sub (← budget)
  nextToken
  pure (.templateLiteral texts expressions)

/-- An operand behind three dots. -/
def spread (sub : Goal → ParserM Node) : ParserM Node := do
  nextToken
  let argument ← operandAt sub .spreadElement .argument
  pure (.spread argument)

/-- An array. -/
def array (sub : Goal → ParserM Node) : ParserM Node := do
  nextToken
  let elements ← closedList .closeBracket (operandAt sub .arrayPattern .elements)
  pure (.array elements)

/-- Statements between braces. -/
def block (sub : Goal → ParserM Node) : ParserM Node := do
  require .openBrace
  let body ← manyWhile (isNot .closeBrace) (statementAt sub .blockStatement .body) (← budget)
  require .closeBrace
  pure (.block body)

/-- An arrow function from behind its arrow on. The body is a block or an operand. -/
def arrowBody (sub : Goal → ParserM Node) (params : List Node) : ParserM Node := do
  let body ←
    if ← isAt .openBrace then within (.filling .arrowFunctionExpression .body) (block sub)
    else operandAt sub .arrowFunctionExpression .body
  pure (.arrowFunction params body)

/-- A parameter of an arrow function, put down with those before it. -/
def arrowParameter (sub : Goal → ParserM Node) : ParserM Unit := do
  let parameter ← operandAt sub .arrowFunctionExpression .params
  modify fun parser => { parser with pendingParams := parameter :: parser.pendingParams }

/-- Takes up the parameters put down since there were `mark` of them. -/
def takeParams (mark : Nat) : ParserM (List Node) := do
  let params := (← get).pendingParams
  let count := params.length - mark
  modify fun parser => { parser with pendingParams := params.drop count }
  pure (params.take count).reverse

/-- An arrow function that starts with parentheses. -/
def arrowFunction (sub : Goal → ParserM Node) : ParserM Node := do
  nextToken
  let mark := (← get).pendingParams.length
  let _ ← closedList .closeParen (arrowParameter sub)
  require .arrow
  let params ← takeParams mark
  arrowBody sub params

/-- An operand or a sequence in parentheses. -/
def parenthesized (sub : Goal → ParserM Node) : ParserM Node := do
  nextToken
  if ← isAt .closeParen then reject fun parser => parser.complaint .emptyParentheses
  else
    match ← closedList .closeParen (within .parentheses (sub .operand)) with
    | [expression] => pure expression
    | expressions => pure (.sequence expressions)

/-- A parenthesis that starts an operand: parameters of an arrow function if `opensArrow` says so,
or else parentheses around an operand. -/
def openingParen (opensArrow : ParserM Bool) (sub : Goal → ParserM Node) : ParserM Node := do
  if ← opensArrow then arrowFunction sub else parenthesized sub

/-- Arguments in parentheses. -/
def argumentList (sub : Goal → ParserM Node) (owner : NodeKind) : ParserM (List Node) := do
  require .openParen
  closedList .closeParen (operandAt sub owner .arguments)

/-- A construction. The arguments may be left out. -/
def construction (sub : Goal → ParserM Node) : ParserM Node := do
  nextToken
  let callee ← operandAt sub .newExpression .callee
  if ← isAt .openParen then
    let arguments ← argumentList sub .newExpression
    pure (.call .construct callee arguments)
  else pure (.call .construct callee [])

/-- Whether the token behind `yield` leaves it without argument. -/
def endsYield (token : Option Token) : Bool :=
  match token with
  | none => true
  | some token => match token.kind with
    | .semicolon | .closeParen | .closeBracket | .closeBrace | .comma | .colon => true
    | _ => false

/-- `yield` or `yield*`, with an argument unless the line ends. -/
def yieldOperand (sub : Goal → ParserM Node) : ParserM Node := do
  let word ← token
  let delegate := word.raw.toList.getLast? == some '*'
  if endsYield (← nextTokenIn .newlines) then pure (.yieldExpression delegate none)
  else
    let argument ← operandAt sub .yieldExpression .argument
    pure (.yieldExpression delegate (some argument))

/-- An operator before its operand. -/
def leadingOperator (sub : Goal → ParserM Node) : ParserM Node := do
  let word ← token
  if Operator.isLeading word.value then
    nextToken
    if Operator.isUpdate word.value then
      let argument ← operandAt sub .updateExpression .argument
      pure (.update word.value argument true)
    else
      let argument ← operandAt sub .unaryExpression .argument
      pure (.unary word.value argument true)
  else reject fun parser => parser.complaint .missingLeftOperand

/-- An access by name. Any word may be the name. -/
def memberAccess (owner : Node) : ParserM Node := do
  match ← nextTokenIn .names with
  | some word =>
    if word.kind = .identifierName then
      nextToken
      pure (.member owner (.identifier word.value) false)
    else reject fun parser => parser.complaint .identifierExpected
  | none => reject fun parser => parser.complaint .identifierExpected

/-- An access by a computed key. -/
def computedAccess (sub : Goal → ParserM Node) (owner : Node) : ParserM Node := do
  nextToken
  let key ← operandAt sub .memberExpression .computed
  require .closeBracket
  pure (.member owner key true)

/-- A call. -/
def call (sub : Goal → ParserM Node) (callee : Node) : ParserM Node := do
  let arguments ← argumentList sub .callExpression
  pure (.call .plain callee arguments)

/-- The binary operator at the current token, with its strength. -/
def binaryOperator? : ParserM (Option (String × Nat)) := do
  match ← current with
  | some word => pure ((Operator.binaryStrength? word).map fun strength => (word.value, strength))
  | none => pure none

mutual

/-- Takes binary operators of at least a given strength, and their right operands. -/
def takeOperators (sub : Goal → ParserM Node) (left : Node) (least : Nat) : Nat → ParserM Node
  | 0 => throw .outOfSteps
  | rounds + 1 => do
    match ← binaryOperator? with
    | some (operator, strength) =>
      if strength < least then pure left
      else
        nextToken
        let right ← operandAt sub .binaryExpression .operand
        let right ← absorb sub right strength rounds
        takeOperators sub (.binary (Operator.role operator) operator left right) least rounds
    | none => pure left

/-- Lets a right operand take the operators that follow it: those that bind tighter than the one
before it, and those as strong as that one if they group from the right. -/
def absorb (sub : Goal → ParserM Node) (right : Node) (strength : Nat) : Nat → ParserM Node
  | 0 => throw .outOfSteps
  | rounds + 1 => do
    match ← binaryOperator? with
    | some (operator, following) =>
      if strength < following then
        let right ← takeOperators sub right (strength + 1) rounds
        absorb sub right strength rounds
      else if following = strength ∧ Operator.groupsRight operator then
        let right ← takeOperators sub right strength rounds
        absorb sub right strength rounds
      else pure right
    | none => pure right

end

/-- An operator behind an operand. -/
def followingOperator (sub : Goal → ParserM Node) (left : Node) : ParserM Node := do
  let word ← token
  if Operator.isUpdate word.value then
    nextToken
    pure (.update word.value left false)
  else takeOperators sub left Operator.leastStrength (← budget)

/-- An assignment. -/
def assignment (sub : Goal → ParserM Node) (left : Node) : ParserM Node := do
  let word ← token
  nextToken
  let right ← operandAt sub .assignmentExpression .right
  pure (.assignment word.value left right)

/-- A choice between two operands. -/
def conditional (sub : Goal → ParserM Node) (test : Node) : ParserM Node := do
  nextToken
  let consequent ← operandAt sub .conditionalExpression .consequent
  require .colon
  let alternate ← operandAt sub .conditionalExpression .alternate
  pure (.conditional test consequent (some alternate))

/-- Operands behind commas, one after the other. -/
def sequenceRest (sub : Goal → ParserM Node) : Nat → ParserM (List Node)
  | 0 => throw .outOfSteps
  | rounds + 1 => do
    if ← accept .comma then
      let expression ← operandAt sub .sequenceExpression .expressions
      let others ← sequenceRest sub rounds
      pure (expression :: others)
    else pure []

/-- A sequence. -/
def sequence (sub : Goal → ParserM Node) (first : Node) : ParserM Node := do
  let others ← sequenceRest sub (← budget)
  pure (.sequence (first :: others))

/-- An arrow function whose parameter is the operand before the arrow. -/
def arrowFromOperand (sub : Goal → ParserM Node) (parameter : Node) : ParserM Node := do
  nextToken
  arrowBody sub [parameter]

/-- A statement whose label is the operand before the colon. -/
def labeled (sub : Goal → ParserM Node) (label : Node) : ParserM Node := do
  nextToken
  let body ← statementAt sub .labeledStatement .body
  pure (.labeled label body)

end ParserM

end ScriptTree
