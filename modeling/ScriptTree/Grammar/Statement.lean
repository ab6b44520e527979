import ScriptTree.Grammar.Member

/-!
Statements, except those of modules.
-/

namespace ScriptTree

namespace ParserM

/-- An operand as a statement. What is a statement already stays as it is. -/
def expressionStatement (sub : Goal → ParserM Node) : ParserM Node := do
  let expression ← operandAt sub .expressionStatement .expression
  if expression.isStatement then pure expression
  else
    let _ ← accept .semicolon
    pure (.expressionStatement expression)

/-- One declarator. -/
def declarator (sub : Goal → ParserM Node) : ParserM Node := do
  let target ← operandAt sub .variableDeclarator .target
  if ← acceptText .assignmentOperator "=" then
    let value ← operandAt sub .variableDeclarator .initial
    pure (.variableDeclarator target (some value))
  else pure (.variableDeclarator target none)

/-- Declarators with commas between them. Any word may be the name behind a comma. -/
def declarators (sub : Goal → ParserM Node) : Nat → ParserM (List Node)
  | 0 => throw .outOfSteps
  | rounds + 1 => do
    let first ← declarator sub
    if ← isAt .comma then
      let _ ← nextTokenIn .names
      let others ← declarators sub rounds
      pure (first :: others)
    else pure [first]

/-- A declaration of variables, without a semicolon behind it. -/
def variableDeclaration (sub : Goal → ParserM Node) : ParserM Node := do
  let word ← token
  match VariableKind.ofKeyword? word.value with
  | some kind =>
    let _ ← nextTokenIn .names
    let declarations ← declarators sub (← budget)
    pure (.variableDeclaration kind declarations)
  | none => reject Parser.unexpected

/-- Steps from a keyword over the parenthesis that must follow it. -/
def enterParens : ParserM Unit := do
  match ← nextTokenIn (.expecting [.openParen]) with
  | some _ => nextToken
  | none =>
    let _ ← reread .default
    reject fun parser => parser.wanting "("

/-- A condition in parentheses, of which the first is already passed. -/
def condition (sub : Goal → ParserM Node) (kind : NodeKind) (slot : Slot) : ParserM Node := do
  let test ← operandAt sub kind slot
  require .closeParen
  pure test

/-- A choice between two statements. -/
def ifStatement (sub : Goal → ParserM Node) : ParserM Node := do
  enterParens
  let test ← condition sub .ifStatement .test
  let consequent ← statementAt sub .ifStatement .consequent
  if ← accept .elseKeyword then
    let alternate ← statementAt sub .ifStatement .alternate
    pure (.ifStatement test consequent (some alternate))
  else pure (.ifStatement test consequent none)

/-- A loop with its condition in front. -/
def whileStatement (sub : Goal → ParserM Node) : ParserM Node := do
  enterParens
  let test ← condition sub .whileStatement .test
  let body ← statementAt sub .whileStatement .body
  pure (.whileStatement test body)

/-- A loop with its condition behind. -/
def doWhile (sub : Goal → ParserM Node) : ParserM Node := do
  nextToken
  let body ← statementAt sub .doWhileStatement .body
  if ← isAt .whileKeyword then
    enterParens
    let test ← condition sub .doWhileStatement .test
    let _ ← accept .semicolon
    pure (.doWhile body test)
  else reject fun parser => parser.wanting "while"

/-- The first clause of a loop head, if it is not empty. -/
def forStart (sub : Goal → ParserM Node) : ParserM (Option Node) := do
  let word ← token
  match word.kind with
  | .semicolon => pure none
  | .declarationKeyword =>
    let declaration ← within (.filling .forStatement .initial) (variableDeclaration sub)
    pure (some declaration)
  | _ =>
    let expression ← operandAt sub .forStatement .initial
    pure (some expression)

/-- A further clause of a loop head, empty at its closing token. -/
def forClause (sub : Goal → ParserM Node) (close : TokenKind) (slot : Slot) :
    ParserM (Option Node) := do
  if ← isAt close then pure none
  else
    let clause ← operandAt sub .forStatement slot
    pure (some clause)

/-- A loop of three clauses, from behind the first. -/
def forRest (sub : Goal → ParserM Node) (start : Option Node) : ParserM Node := do
  let test ← forClause sub .semicolon .test
  require .semicolon
  let step ← forClause sub .closeParen .step
  require .closeParen
  let body ← statementAt sub .forStatement .body
  pure (.forStatement start test step body)

/-- The kind of a loop over the members of a value. -/
def forEachNodeKind : ForEachKind → NodeKind
  | .keys => .forInStatement
  | .values => .forOfStatement

/-- The word that makes a loop run over keys or values. -/
def forEachKind? (token : Token) : Option ForEachKind :=
  if token.isText .operator "in" then some .keys
  else if token.isText .operator "of" then some .values
  else none

/-- A loop over the members of a value, from behind its left side. -/
def forEachRest (sub : Goal → ParserM Node) (left : Node) (awaits : Bool) : ParserM Node := do
  let word ← token
  match forEachKind? word with
  | some kind =>
    nextToken
    let right ← condition sub (forEachNodeKind kind) .right
    let body ← statementAt sub (forEachNodeKind kind) .body
    pure (.forEach kind left right body awaits)
  | none => reject fun parser => parser.complaint .inOrOfExpected

/-- A loop with a head. Its opening parenthesis belongs to the keyword's token. -/
def forStatement (sub : Goal → ParserM Node) : ParserM Node := do
  let word ← token
  let awaits := Scan.awaitWord.isSuffixOf word.value.toList
  nextToken
  let start ← forStart sub
  if ← accept .semicolon then forRest sub start
  else
    match start with
    | some left => forEachRest sub left awaits
    | none => reject Parser.unexpected

/-- Whether the statements of a case go on. -/
def caseGoesOn (token : Option Token) : Bool :=
  match token with
  | none => false
  | some token => match token.kind with
    | .caseKeyword | .defaultKeyword | .closeBrace => false
    | _ => true

/-- The test of a case, or none for the default. -/
def caseTest (sub : Goal → ParserM Node) : ParserM (Option Node) := do
  let word ← token
  match word.kind with
  | .caseKeyword =>
    nextToken
    let test ← operandAt sub .switchCase .test
    pure (some test)
  | .defaultKeyword =>
    nextToken
    pure none
  | _ => reject Parser.unexpected

/-- A case of a switch. -/
def switchCase (sub : Goal → ParserM Node) : ParserM Node := do
  let test ← caseTest sub
  require .colon
  let consequent ← manyWhile caseGoesOn (statementAt sub .switchCase .consequent) (← budget)
  pure (.switchCase test consequent)

/-- A choice between many cases. -/
def switchStatement (sub : Goal → ParserM Node) : ParserM Node := do
  enterParens
  let discriminant ← condition sub .switchStatement .discriminant
  require .openBrace
  let cases ← manyWhile (isNot .closeBrace) (switchCase sub) (← budget)
  require .closeBrace
  pure (.switchStatement discriminant cases)

/-- A return. The end of the line ends it. -/
def returnStatement (sub : Goal → ParserM Node) : ParserM Node := do
  match ← nextTokenIn .newlines with
  | none => pure (.returnStatement none)
  | some word =>
    if word.kind = .semicolon then
      nextToken
      pure (.returnStatement none)
    else if word.kind = .closeBrace then pure (.returnStatement none)
    else
      let argument ← operandAt sub .returnStatement .argument
      let _ ← accept .semicolon
      pure (.returnStatement (some argument))

/-- A jump. Its label is the value of the token. -/
def jump : ParserM Node := do
  let word ← token
  nextToken
  let _ ← accept .semicolon
  let label := if word.value.isEmpty then none else some (.identifier word.value)
  pure (.jump (if word.kind = .breakKeyword then .leaveLoop else .nextRound) label)

/-- A declaration of variables as a statement. -/
def declarationStatement (sub : Goal → ParserM Node) : ParserM Node := do
  let declaration ← variableDeclaration sub
  let _ ← accept .semicolon
  pure declaration

/-- The empty statement. -/
def emptyStatement : ParserM Node := do
  nextToken
  pure .emptyStatement

end ParserM

end ScriptTree
