import ScriptTree.Grammar.Statement

/-!
Imports and exports.
-/

namespace ScriptTree

namespace ParserM

/-- The name of a module. -/
def moduleName : ParserM Node := do
  if ← isAt .stringLiteral then literal
  else reject fun parser => parser.wanting "module specifier"

/-- The other name of a binding, or the same name again. -/
def renamed (name : Node) : ParserM Node := do
  if ← acceptText .importOperator "as" then ParserM.name else pure name

/-- One binding of an import. -/
def importSpecifier : ParserM Node := do
  let imported ← name
  let localName ← renamed imported
  pure (.importSpecifier imported localName)

/-- The module as a whole, or some bindings in braces. -/
def importBindings : ParserM (List Node) := do
  if ← acceptText .operator "*" then
    requireText .importOperator "as"
    let localName ← name
    pure [.importTarget .wholeModule localName]
  else
    require .openBrace
    closedList .closeBrace importSpecifier

/-- All that an import binds: the default value, other bindings, or both. -/
def importSpecifiers : ParserM (List Node) := do
  if (← current).any canBeName then
    let localName ← name
    let first := Node.importTarget .defaultValue localName
    if ← accept .comma then
      let others ← importBindings
      pure (first :: others)
    else pure [first]
  else importBindings

/-- An import. -/
def importDeclaration : ParserM Node := do
  nextToken
  let specifiers ←
    if ← isAt .stringLiteral then pure []
    else
      let specifiers ← within (.filling .importDeclaration .specifiers) importSpecifiers
      requireText .importOperator "from"
      pure specifiers
  let source ← moduleName
  let _ ← accept .semicolon
  pure (.importDeclaration specifiers source)

/-- One binding of an export. -/
def exportSpecifier : ParserM Node := do
  let localName ← name
  let exported ← renamed localName
  pure (.exportSpecifier localName exported)

/-- An export of bindings in braces. -/
def exportNamed : ParserM Node := do
  nextToken
  let specifiers ← within (.filling .exportNamedDeclaration .specifiers)
    (do commaList .closeBrace exportSpecifier (← budget))
  require .closeBrace
  let source ←
    if ← acceptText .importOperator "from" then
      let source ← moduleName
      pure (some source)
    else pure none
  let _ ← accept .semicolon
  pure (.exportNamed specifiers source)

/-- An export of bindings or of a declaration. -/
def exportStatement (sub : Goal → ParserM Node) : ParserM Node := do
  nextToken
  if ← isAt .openBrace then exportNamed
  else
    let declaration ← statementAt sub .exportStatement .declaration
    pure (.exportStatement false declaration)

/-- An export of the default value: a function, a class or an operand. -/
def exportDefault (sub : Goal → ParserM Node) : ParserM Node := do
  nextToken
  let word ← token
  match word.kind with
  | .functionKeyword | .classKeyword =>
    let declaration ← statementAt sub .exportDefaultStatement .declaration
    pure (.exportStatement true declaration)
  | _ =>
    let expression ← operandAt sub .exportDefaultStatement .declaration
    let _ ← accept .semicolon
    pure (.exportStatement true expression)

end ParserM

end ScriptTree
