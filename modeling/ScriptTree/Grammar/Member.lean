import ScriptTree.Grammar.Expression

/-!
Functions, classes and objects: the constructs with parameters, members and keys.
-/

namespace ScriptTree

namespace ParserM

/-- The kind of a function's node. -/
def functionKind : FunctionRole → NodeKind
  | .declaration => .functionDeclaration
  | .expression => .functionExpression

/-- A function from its parameters on. -/
def functionRest (sub : Goal → ParserM Node) (role : FunctionRole) (isAsync isGenerator : Bool)
    (name : Option Node) : ParserM Node := do
  require .openParen
  let params ← closedList .closeParen (operandAt sub (functionKind role) .params)
  let body ← within (.filling (functionKind role) .body) (block sub)
  pure (.function role isAsync isGenerator name params (some body))

/-- The name of a function, if the token that was just read is one. -/
def functionName (word : Option Token) : ParserM (Option Node) :=
  match word with
  | some word =>
    if word.kind = .identifierName then do
      nextToken
      pure (some (.identifier word.value))
    else pure none
  | none => pure none

/-- A function. Where a statement can stand it is a declaration. -/
def function (sub : Goal → ParserM Node) : ParserM Node := do
  let word ← token
  let head := word.raw.toList
  let role := if (← get).context.expectsDeclaration then .declaration else .expression
  let name ← functionName (← nextTokenIn .names)
  functionRest sub role (afterSpelling? Scan.asyncWord head).isSome (head.getLast? == some '*') name

/-- Whether a token behind `get`, `set`, `static` or `async` makes that word a modifier, and not the
name of the member itself. -/
def canStartMember (token : Option Token) : Bool :=
  match token with
  | none => false
  | some token => match token.kind with
    | .openParen | .assignmentOperator | .semicolon | .closeBrace | .colon | .comma => false
    | _ => true

/-- Steps over the current word if it is a modifier. Otherwise it is read again as a name. -/
def tryModifier (sameLine : Bool) : ParserM Bool := do
  let saved := (← get).lexer.bookmark
  let following ← nextTokenIn .default
  if canStartMember following && !(sameLine && following.any Token.afterNewline) then pure true
  else
    modifyLexer fun lexer => lexer.returnTo saved
    let _ ← reread .names
    pure false

/-- Steps over a modifier of a kind. -/
def acceptModifier (kind : TokenKind) : ParserM Bool := do
  if ← isAt kind then tryModifier false else pure false

/-- Steps over `async` before a member on the same line. -/
def acceptAsync : ParserM Bool := do
  if ← isAtText .identifierName "async" then tryModifier true else pure false

/-- The key of a member, and whether it is computed. -/
def memberKey (sub : Goal → ParserM Node) (owner : NodeKind) : ParserM (Node × Bool) := do
  let word ← token
  match word.kind with
  | .openBracket =>
    nextToken
    let key ← operandAt sub owner .key
    require .closeBracket
    pure (key, true)
  | .stringLiteral | .numericLiteral =>
    let key ← literal
    pure (key, false)
  | _ =>
    if canBeName word then
      let key ← name
      pure (key, false)
    else reject Parser.unexpected

/-- Whether a member is read, written or plain. -/
def methodKind : ParserM MethodKind := do
  if ← acceptModifier .getKeyword then pure .getter
  else if ← acceptModifier .setKeyword then pure .setter
  else pure .method

/-- A member of a class. -/
def classMember (sub : Goal → ParserM Node) : ParserM Node := do
  let isStatic ← acceptModifier .staticKeyword
  let isAsync ← acceptAsync
  let isGenerator ← acceptText .operator "*"
  let kind ← methodKind
  let (key, computed) ← memberKey sub .classBody
  if ← isAt .openParen then
    let value ← functionRest sub .expression isAsync isGenerator none
    pure (.methodDefinition isStatic kind key computed value)
  else
    let value ←
      if ← acceptText .assignmentOperator "=" then
        let value ← operandAt sub .propertyDefinition .value
        pure (some value)
      else pure none
    let _ ← accept .semicolon
    pure (.propertyDefinition isStatic key computed value)

/-- The members of a class. Semicolons between them are passed over. -/
def classMembers (sub : Goal → ParserM Node) : Nat → ParserM (List Node)
  | 0 => throw .outOfSteps
  | rounds + 1 => do
    if ← isAt .closeBrace then pure []
    else if ← accept .semicolon then classMembers sub rounds
    else
      let first ← within (.filling .classBody .body) (classMember sub)
      let others ← classMembers sub rounds
      pure (first :: others)

/-- The name of a class, if it has one. -/
def className : ParserM (Option Node) := do
  if ← isAt .identifierName then
    let name ← identifier
    pure (some name)
  else pure none

/-- A class. -/
def classDefinition (sub : Goal → ParserM Node) : ParserM Node := do
  nextToken
  let name ← className
  let superClass ←
    if ← accept .extendsKeyword then
      let superClass ← operandAt sub .classDeclaration .superClass
      pure (some superClass)
    else pure none
  require .openBrace
  let members ← classMembers sub (← budget)
  require .closeBrace
  pure (.classDeclaration name superClass (.classBody members))

/-- Whether an object member is read, written or plain. -/
def propertyKind : ParserM PropertyKind := do
  if ← acceptModifier .getKeyword then pure .getter
  else if ← acceptModifier .setKeyword then pure .setter
  else pure .plain

/-- The default of a member in short form, if it has one. -/
def shorthandValue (sub : Goal → ParserM Node) (key : Node) : ParserM Node := do
  if ← acceptText .assignmentOperator "=" then
    let value ← operandAt sub .assignmentExpression .right
    pure (.assignment "=" key value)
  else pure key

/-- An object member that is not a spread. -/
def property (sub : Goal → ParserM Node) (owner : NodeKind) : ParserM Node := do
  let isAsync ← acceptAsync
  let isGenerator ← acceptText .operator "*"
  let kind ← propertyKind
  let (key, computed) ← memberKey sub owner
  if ← isAt .openParen then
    let value ← functionRest sub .expression isAsync isGenerator none
    pure (.property key value kind computed false (kind == .plain))
  else if ← accept .colon then
    let value ← operandAt sub owner .value
    pure (.property key value kind computed false false)
  else if key.isIdentifier && !computed then
    let value ← shorthandValue sub key
    pure (.property key value kind computed true false)
  else reject fun parser => parser.wanting ":"

/-- An object member. -/
def objectMember (sub : Goal → ParserM Node) (owner : NodeKind) : ParserM Node := do
  if ← isAt .ellipsis then spread sub else property sub owner

/-- The kind of an object's node. -/
def objectKind : ObjectRole → NodeKind
  | .expression => .objectExpression
  | .pattern => .objectPattern

/-- An object, or an object pattern where the context asks for one. -/
def object (sub : Goal → ParserM Node) : ParserM Node := do
  let role := if (← get).context.expectsPattern then .pattern else .expression
  nextToken
  let properties ← closedList .closeBrace
    (within (.filling (objectKind role) .properties) (objectMember sub (objectKind role)))
  pure (.object role properties)

end ParserM

end ScriptTree
