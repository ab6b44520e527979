import ScriptTree.Number.Shortest
import ScriptTree.Printer.Options
import ScriptTree.Printer.Parentheses
import ScriptTree.Tree.Equality

/-!
Printing a tree as text. Every node has one bare text; where it stands decides whether it gets
parentheses or a semicolon. Statements stand on lines of their own and binary operators always in
parentheses.
-/

namespace ScriptTree

namespace Printer

/-- Whether a text holds a quote with no backslash before it. -/
def holdsBare (quote : Char) : List Char → Bool
  | [] => false
  | '\\' :: _ :: text => holdsBare quote text
  | c :: text => c == quote || holdsBare quote text

/-- A string in quotes: the preferred ones, unless one of them stands bare in it. -/
def quoted (options : PrinterOptions) (contents : String) : String :=
  let quote :=
    if holdsBare options.quote.char contents.toList then options.quote.other else options.quote
  String.singleton quote.char ++ contents ++ String.singleton quote.char

/-- A literal. A number keeps its spelling if it has one. -/
def literalText (options : PrinterOptions) (value : LiteralValue) (raw : String) : String :=
  match value with
  | .string contents => quoted options contents
  | .number number => if raw.isEmpty then number.text else raw
  | .boolean true => "true"
  | .boolean false => "false"
  | .null => "null"
  | .regex source => source

/-- A new line at a level of indentation. -/
def lineBreak (options : PrinterOptions) (level : Nat) : String :=
  options.newLine ++ String.join (List.replicate level options.indent)

/-- A text in parentheses. -/
def parens (text : String) : String := "(" ++ text ++ ")"

/-- The text of a node that stands alone: a declaration of variables gets its semicolon. -/
def alone (node : Node) (bare : String) : String :=
  match node with
  | .variableDeclaration .. => bare ++ ";"
  | _ => bare

/-- The text of a node in a place, from its bare text. -/
def placed (place : Place) (node : Node) (bare : String) : String :=
  if node.isWrapped place then parens (alone node bare) else alone node bare

/-- The text of an expression at the start of a statement. -/
def leading (place : Place) (node : Node) (bare : String) : String :=
  if node.startsLikeStatement then parens (placed .any node bare) else placed place node bare

/-- The text of a node in the place of a statement. -/
def asStatement (node : Node) (bare : String) : String :=
  if node.isStatement then alone node bare else leading .any node bare ++ ";"

/-- Statements, each on a new line. -/
def statementLines (options : PrinterOptions) (level : Nat) (nodes : List Node)
    (bares : List String) : String :=
  String.join (List.zipWith (fun node bare => lineBreak options level ++ asStatement node bare)
    nodes bares)

/-- Nodes that stand alone, each on a new line. -/
def aloneLines (options : PrinterOptions) (level : Nat) (nodes : List Node)
    (bares : List String) : String :=
  String.join (List.zipWith (fun node bare => lineBreak options level ++ alone node bare)
    nodes bares)

/-- Items of a list, with commas between them. -/
def commaItems (nodes : List Node) (bares : List String) : String :=
  ", ".intercalate (List.zipWith (placed .item) nodes bares)

/-- Names of an import or export in braces. -/
def bracedNames (texts : List String) : String :=
  if texts.isEmpty then "\x7b\x7d" else "\x7b " ++ ", ".intercalate texts ++ " \x7d"

/-- A name, and the other name it is given if that differs. -/
def renamedText (name other : Node) (bareName bareOther : String) : String :=
  if name.same other then placed .any name bareName
  else placed .any name bareName ++ " as " ++ placed .any other bareOther

/-- Whether a node is a binding that stands in braces. -/
def isNamedBinding : Node → Bool
  | .importSpecifier .. => true
  | _ => false

/-- What an import binds: first what stands without braces, then the rest in braces. -/
def importClause (nodes : List Node) (bares : List String) : String :=
  let entries := nodes.zip bares
  let texts (chosen : List (Node × String)) := chosen.map fun entry => alone entry.1 entry.2
  let named := texts (entries.filter fun entry => isNamedBinding entry.1)
  let others := texts (entries.filter fun entry => !isNamedBinding entry.1)
  ", ".intercalate (others ++ if named.isEmpty then [] else [bracedNames named])

/-- The pieces of a template: each text is followed by the expression at its place. -/
def templateText : List String → List String → String
  | [], _ => ""
  | text :: texts, [] => text ++ templateText texts []
  | text :: texts, expression :: expressions =>
    text ++ "$\x7b" ++ expression ++ "\x7d" ++ templateText texts expressions

/-- A key, in brackets if it is computed. -/
def keyText (key : Node) (computed : Bool) (bare : String) : String :=
  if computed then "[" ++ placed .item key bare ++ "]" else placed .any key bare

/-- The words before `function` or before a method's name. -/
def asyncText (isAsync : Bool) : String := if isAsync then "async " else ""

/-- The star of a generator. -/
def starText (isGenerator : Bool) : String := if isGenerator then "*" else ""

/-- The word before a static member. -/
def staticText (isStatic : Bool) : String := if isStatic then "static " else ""

/-- A member written as a method: the modifiers of its function, then its key, then parameters and
body, which are the tail of the value. A value that is no function follows a colon. -/
def methodText (accessor : String) (key value : Node) (computed : Bool)
    (bareKey bareValue tail : String) : String :=
  match value with
  | .function .expression isAsync isGenerator .. =>
    asyncText isAsync ++ starText isGenerator ++ accessor ++ keyText key computed bareKey ++ tail
  | _ => accessor ++ keyText key computed bareKey ++ ": " ++ placed .item value bareValue

/-- The short form of an object member: its name alone if the value is that name, or the name with a
default if the value assigns to it. The default is the tail of the value. -/
def shorthand? (key value : Node) (computed : Bool) (tail : String) : Option String :=
  if computed then none
  else match key, value with
    | .identifier name, .identifier other => if other == name then some name else none
    | .identifier name, .assignment operator (.identifier other) _ =>
      if operator == "=" && other == name then some (name ++ " = " ++ tail) else none
    | _, _ => none

/-- An object member. -/
def propertyText (key value : Node) (kind : PropertyKind) (computed method : Bool)
    (bareKey bareValue tail : String) : String :=
  match kind with
  | .getter => methodText "get " key value computed bareKey bareValue tail
  | .setter => methodText "set " key value computed bareKey bareValue tail
  | .plain =>
    if method then methodText "" key value computed bareKey bareValue tail
    else match shorthand? key value computed tail with
      | some text => text
      | none => keyText key computed bareKey ++ ": " ++ placed .item value bareValue

/-- The word before a class member that reads or writes. -/
def accessorText : MethodKind → String
  | .method => ""
  | .getter => "get "
  | .setter => "set "

/-- Statements between braces. -/
def blockText (options : PrinterOptions) (level : Nat) (nodes : List Node) (bares : List String) :
    String :=
  if nodes.isEmpty then "\x7b\x7d"
  else "\x7b" ++ statementLines options (level + 1) nodes bares ++ lineBreak options level ++ "\x7d"

/-- Members between braces. -/
def classBodyText (options : PrinterOptions) (level : Nat) (nodes : List Node)
    (bares : List String) : String :=
  if nodes.isEmpty then "\x7b\x7d"
  else "\x7b" ++ aloneLines options (level + 1) nodes bares ++ lineBreak options level ++ "\x7d"

/-- The statements of a program. They are indented like the place they stand in. -/
def programText (options : PrinterOptions) (level : Nat) (nodes : List Node) (bares : List String) :
    String :=
  let margin := String.join (List.replicate level options.indent)
  options.newLine.intercalate
    (List.zipWith (fun node bare => margin ++ asStatement node bare) nodes bares)

/-- A text that is only there if its node is. -/
def optional (node : Option Node) (bare : String) (text : Node → String → String) : String :=
  match node with
  | some node => text node bare
  | none => ""

/-- The parameters and the body of a function. -/
def functionTail (params : List Node) (body : Option Node) (bareParams : List String)
    (bareBody : String) : String :=
  "(" ++ commaItems params bareParams ++ ") " ++
    match body with
    | some body => asStatement body bareBody
    | none => "\x7b\x7d"

/-- Whether the body of an arrow function is wrapped whatever it begins with. -/
def isWrappedBody : Node → Bool
  | .sequence .. | .assignment .. => true
  | _ => false

/-- The body of an arrow function. -/
def arrowBodyText (body : Node) (bare : String) : String :=
  if body.startsLikeStatement || isWrappedBody body then parens (placed .any body bare)
  else placed .item body bare

/-- A leading operator; a word is kept apart from its operand. -/
def operatorText (operator : String) : String :=
  if operator.toList.head?.any Char.isAlpha then operator ++ " " else operator

mutual

/-- The bare text of a node at a level of indentation. -/
def bare (options : PrinterOptions) (level : Nat) : Node → String
  | .program body => programText options level body (bares options level body)
  | .emptyStatement => ";"
  | .expressionStatement expression =>
    leading .any expression (bare options level expression) ++ ";"
  | .block body => blockText options level body (bares options (level + 1) body)
  | .returnStatement argument =>
    "return" ++ optional argument (bareOption options level argument)
      (fun node text => " " ++ placed .item node text) ++ ";"
  | .ifStatement test consequent alternate =>
    "if (" ++ placed .any test (bare options level test) ++ ") " ++
      asStatement consequent (bare options level consequent) ++
      optional alternate (bareOption options level alternate)
        (fun node text => " else " ++ asStatement node text)
  | .switchStatement discriminant cases =>
    "switch (" ++ placed .any discriminant (bare options level discriminant) ++ ") \x7b" ++
      aloneLines options (level + 1) cases (bares options (level + 1) cases) ++
      lineBreak options level ++ "\x7d"
  | .switchCase test consequent =>
    (match test with
      | some _ => "case " ++ optional test (bareOption options level test) (placed .item) ++ ":"
      | none => "default:") ++
      statementLines options (level + 1) consequent (bares options (level + 1) consequent)
  | .forStatement start test step body =>
    "for (" ++ bareOption options level start ++ ";" ++
      optional test (bareOption options level test)
        (fun node text => " " ++ placed .any node text) ++
      ";" ++
      optional step (bareOption options level step)
        (fun node text => " " ++ placed .any node text) ++
      ") " ++ asStatement body (bare options level body)
  | .forEach kind left right body awaits =>
    "for " ++ (if awaits then "await " else "") ++ "(" ++ bare options level left ++ " " ++
      kind.keyword ++ " " ++ placed .item right (bare options level right) ++ ") " ++
      asStatement body (bare options level body)
  | .doWhile body test =>
    "do " ++ asStatement body (bare options level body) ++ " while (" ++
      placed .any test (bare options level test) ++ ");"
  | .whileStatement test body =>
    "while (" ++ placed .any test (bare options level test) ++ ") " ++
      asStatement body (bare options level body)
  | .jump kind label =>
    kind.keyword ++ optional label (bareOption options level label)
      (fun node text => " " ++ placed .any node text) ++ ";"
  | .labeled label body =>
    placed .any label (bare options level label) ++ ": " ++
      asStatement body (bare options level body)
  | .variableDeclaration kind declarations =>
    kind.keyword ++ " " ++
      ", ".intercalate (List.zipWith alone declarations (bares options level declarations))
  | .variableDeclarator target value =>
    placed .any target (bare options level target) ++
      optional value (bareOption options level value)
        (fun node text => " = " ++ placed .item node text)
  | .function _ isAsync isGenerator name params body =>
    asyncText isAsync ++ "function" ++ starText isGenerator ++
      optional name (bareOption options level name)
        (fun node text => " " ++ placed .any node text) ++
      functionTail params body (bares options level params) (bareOption options level body)
  | .classDeclaration name superClass body =>
    "class" ++
      optional name (bareOption options level name)
        (fun node text => " " ++ placed .any node text) ++
      optional superClass (bareOption options level superClass)
        (fun node text => " extends " ++ placed .callee node text) ++
      " " ++ alone body (bare options level body)
  | .classBody members => classBodyText options level members (bares options (level + 1) members)
  | .propertyDefinition isStatic key computed value =>
    staticText isStatic ++ keyText key computed (bare options level key) ++
      optional value (bareOption options level value)
        (fun node text => " = " ++ placed .item node text) ++ ";"
  | .methodDefinition isStatic kind key computed value =>
    staticText isStatic ++
      methodText (accessorText kind) key value computed (bare options level key)
        (bare options level value) (tail options level value)
  | .importDeclaration specifiers source =>
    "import " ++
      (if specifiers.isEmpty then ""
        else importClause specifiers (bares options level specifiers) ++ " from ") ++
      placed .any source (bare options level source) ++ ";"
  | .importTarget target localName =>
    (match target with | .defaultValue => "" | .wholeModule => "* as ") ++
      placed .any localName (bare options level localName)
  | .importSpecifier imported localName =>
    renamedText imported localName (bare options level imported) (bare options level localName)
  | .exportStatement isDefault declaration =>
    if isDefault then
      "export default " ++
        if declaration.isStatement then alone declaration (bare options level declaration)
        else leading .item declaration (bare options level declaration) ++ ";"
    else "export " ++ asStatement declaration (bare options level declaration)
  | .exportNamed specifiers source =>
    "export " ++ bracedNames (List.zipWith alone specifiers (bares options level specifiers)) ++
      optional source (bareOption options level source)
        (fun node text => " from " ++ placed .any node text) ++ ";"
  | .exportSpecifier localName exported =>
    renamedText localName exported (bare options level localName) (bare options level exported)
  | .identifier name => name
  | .literal value raw => literalText options value raw
  | .templateLiteral quasis expressions =>
    "\x60" ++
      templateText (List.zipWith alone quasis (bares options level quasis))
        (List.zipWith (placed .item) expressions (bares options level expressions)) ++ "\x60"
  | .templateElement text => text
  | .spread argument => "..." ++ placed .operand argument (bare options level argument)
  | .thisExpression => "this"
  | .array elements => "[" ++ commaItems elements (bares options level elements) ++ "]"
  | .object _ properties =>
    if properties.isEmpty then "\x7b\x7d"
    else "\x7b " ++ commaItems properties (bares options level properties) ++ " \x7d"
  | .property key value kind computed _ method =>
    propertyText key value kind computed method (bare options level key) (bare options level value)
      (tail options level value)
  | .arrowFunction params body =>
    "(" ++ commaItems params (bares options level params) ++ ") => " ++
      arrowBodyText body (bare options level body)
  | .yieldExpression delegate argument =>
    (if delegate then "yield*" else "yield") ++
      optional argument (bareOption options level argument)
        (fun node text => " " ++ placed .item node text)
  | .unary operator argument _ =>
    operatorText operator ++ placed .unary argument (bare options level argument)
  | .update operator argument isLeading =>
    if isLeading then operator ++ placed .callee argument (bare options level argument)
    else placed .callee argument (bare options level argument) ++ operator
  | .binary _ operator left right =>
    parens (placed .operand left (bare options level left) ++ " " ++ operator ++ " " ++
      placed .operand right (bare options level right))
  | .assignment operator left right =>
    placed .operand left (bare options level left) ++ " " ++ operator ++ " " ++
      placed .item right (bare options level right)
  | .conditional test consequent alternate =>
    placed .operand test (bare options level test) ++ " ? " ++
      placed .operand consequent (bare options level consequent) ++ " : " ++
      (match alternate with
        | some _ => optional alternate (bareOption options level alternate) (placed .operand)
        | none => "undefined")
  | .member owner key computed =>
    placed .callee owner (bare options level owner) ++
      if computed then "[" ++ placed .item key (bare options level key) ++ "]"
      else "." ++ placed .any key (bare options level key)
  | .call role callee arguments =>
    (match role with
      | .plain => placed .callee callee (bare options level callee)
      | .construct => "new " ++ placed .newCallee callee (bare options level callee)) ++
      "(" ++ commaItems arguments (bares options level arguments) ++ ")"
  | .sequence expressions => commaItems expressions (bares options level expressions)

/-- What an object or class member takes over from its value: parameters and body of a function, the
right side of an assignment. -/
def tail (options : PrinterOptions) (level : Nat) : Node → String
  | .function _ _ _ _ params body =>
    functionTail params body (bares options level params) (bareOption options level body)
  | .assignment _ _ right => placed .item right (bare options level right)
  | _ => ""

/-- The bare texts of a list of nodes. -/
def bares (options : PrinterOptions) (level : Nat) : List Node → List String
  | [] => []
  | node :: nodes => bare options level node :: bares options level nodes

/-- The bare text of an optional node, empty if it is absent. -/
def bareOption (options : PrinterOptions) (level : Nat) : Option Node → String
  | none => ""
  | some node => bare options level node

end

/-- The text of a tree. Only a program that is not empty ends with a new line. -/
def print (options : PrinterOptions) (node : Node) : String :=
  let text := alone node (bare options 0 node)
  match node with
  | .program _ =>
    if options.trailingNewline && !text.isEmpty then text ++ options.newLine else text
  | _ => text

end Printer

/-- The text of a tree, with default options. -/
def Node.toSource (node : Node) : String := Printer.print {} node

end ScriptTree
