import ScriptTree.Json.Basic
import ScriptTree.Tree.Node

/-!
The exchange form of a tree: every node an object with its type and its fields.
-/

namespace ScriptTree

/-- A value of the exchange form. -/
abbrev Estree : Type := Json Binary64 String

namespace Estree

/-- The body and the flags of a regular expression, split at its last slash. A text with no other
slash than one at its start is all body. -/
def splitRegex (source : String) : String × String :=
  let backwards := source.toList.reverse
  let flags := backwards.takeWhile (· != '/')
  match backwards.dropWhile (· != '/') with
  | _ :: c :: body =>
    (String.ofList ((c :: body).reverse.drop 1), String.ofList flags.reverse)
  | _ => (source, "")

/-- The value of a literal. A number that is not finite has no form but `null`. -/
def ofLiteral : LiteralValue → Estree
  | .string contents => .string contents
  | .number value => if value.isFinite then .number value else .null
  | .boolean value => .bool value
  | .null => .null
  | .regex source =>
    let (pattern, flags) := splitRegex source
    .object [("pattern", .string pattern), ("flags", .string flags)]

/-- The object of a node with a given kind and fields. -/
def tagged (kind : NodeKind) (fields : List (String × Estree)) : Estree :=
  .object (("type", .string kind.name) :: fields)

mutual

/-- The exchange form of a tree. -/
def ofNode : Node → Estree
  | .program body => tagged .program [("body", .array (ofList body))]
  | .emptyStatement => tagged .emptyStatement []
  | .expressionStatement expression =>
    tagged .expressionStatement [("expression", ofNode expression)]
  | .block body => tagged .blockStatement [("body", .array (ofList body))]
  | .returnStatement argument => tagged .returnStatement [("argument", ofOption argument)]
  | .ifStatement test consequent alternate =>
    tagged .ifStatement
      [("test", ofNode test), ("consequent", ofNode consequent), ("alternate", ofOption alternate)]
  | .switchStatement discriminant cases =>
    tagged .switchStatement
      [("discriminant", ofNode discriminant), ("cases", .array (ofList cases))]
  | .switchCase test consequent =>
    tagged .switchCase [("test", ofOption test), ("consequent", .array (ofList consequent))]
  | .forStatement start test step body =>
    tagged .forStatement
      [("init", ofOption start), ("test", ofOption test), ("update", ofOption step),
       ("body", ofNode body)]
  | .forEach kind left right body awaits =>
    tagged (match kind with | .keys => .forInStatement | .values => .forOfStatement)
      [("left", ofNode left), ("right", ofNode right), ("body", ofNode body),
       ("await", .bool awaits)]
  | .doWhile body test =>
    tagged .doWhileStatement [("body", ofNode body), ("test", ofNode test)]
  | .whileStatement test body =>
    tagged .whileStatement [("test", ofNode test), ("body", ofNode body)]
  | .jump kind label =>
    tagged (match kind with | .nextRound => .continueStatement | .leaveLoop => .breakStatement)
      [("label", ofOption label)]
  | .labeled label body =>
    tagged .labeledStatement [("label", ofNode label), ("body", ofNode body)]
  | .variableDeclaration kind declarations =>
    tagged .variableDeclaration
      [("kind", .string kind.keyword), ("declarations", .array (ofList declarations))]
  | .variableDeclarator target value =>
    tagged .variableDeclarator [("id", ofNode target), ("init", ofOption value)]
  | .function role isAsync isGenerator name params body =>
    tagged
      (match role with | .declaration => .functionDeclaration | .expression => .functionExpression)
      [("async", .bool isAsync), ("generator", .bool isGenerator), ("id", ofOption name),
       ("params", .array (ofList params)), ("body", ofOption body)]
  | .classDeclaration name superClass body =>
    tagged .classDeclaration
      [("id", ofOption name), ("superClass", ofOption superClass), ("body", ofNode body)]
  | .classBody members => tagged .classBody [("body", .array (ofList members))]
  | .propertyDefinition isStatic key computed value =>
    tagged .propertyDefinition
      [("static", .bool isStatic), ("key", ofNode key), ("computed", .bool computed),
       ("value", ofOption value)]
  | .methodDefinition isStatic kind key computed value =>
    tagged .methodDefinition
      [("static", .bool isStatic), ("kind", .string kind.name), ("key", ofNode key),
       ("computed", .bool computed), ("value", ofNode value)]
  | .importDeclaration specifiers source =>
    tagged .importDeclaration
      [("specifiers", .array (ofList specifiers)), ("source", ofNode source)]
  | .importTarget target localName =>
    tagged
      (match target with
        | .defaultValue => .importDefaultSpecifier
        | .wholeModule => .importNamespaceSpecifier)
      [("local", ofNode localName)]
  | .importSpecifier imported localName =>
    tagged .importSpecifier [("imported", ofNode imported), ("local", ofNode localName)]
  | .exportStatement isDefault declaration =>
    tagged (if isDefault then .exportDefaultStatement else .exportStatement)
      [("declaration", ofNode declaration)]
  | .exportNamed specifiers source =>
    tagged .exportNamedDeclaration
      [("specifiers", .array (ofList specifiers)), ("source", ofOption source)]
  | .exportSpecifier localName exported =>
    tagged .exportSpecifier [("local", ofNode localName), ("exported", ofNode exported)]
  | .identifier name => tagged .identifier [("name", .string name)]
  | .literal value raw => tagged .literal [("value", ofLiteral value), ("raw", .string raw)]
  | .templateLiteral quasis expressions =>
    tagged .templateLiteral
      [("quasis", .array (ofList quasis)), ("expressions", .array (ofList expressions))]
  | .templateElement text => tagged .templateElement [("value", .string text)]
  | .spread argument => tagged .spreadElement [("argument", ofNode argument)]
  | .thisExpression => tagged .thisExpression []
  | .array elements => tagged .arrayPattern [("elements", .array (ofList elements))]
  | .object role properties =>
    tagged (match role with | .expression => .objectExpression | .pattern => .objectPattern)
      [("properties", .array (ofList properties))]
  | .property key value kind computed shorthand method =>
    tagged .property
      [("key", ofNode key), ("value", ofNode value), ("kind", .string kind.name),
       ("computed", .bool computed), ("shorthand", .bool shorthand), ("method", .bool method)]
  | .arrowFunction params body =>
    tagged .arrowFunctionExpression [("params", .array (ofList params)), ("body", ofNode body)]
  | .yieldExpression delegate argument =>
    tagged .yieldExpression [("delegate", .bool delegate), ("argument", ofOption argument)]
  | .unary operator argument leading =>
    tagged .unaryExpression
      [("operator", .string operator), ("argument", ofNode argument), ("prefix", .bool leading)]
  | .update operator argument leading =>
    tagged .updateExpression
      [("operator", .string operator), ("argument", ofNode argument), ("prefix", .bool leading)]
  | .binary role operator left right =>
    tagged (match role with | .arithmetic => .binaryExpression | .logical => .logicalExpression)
      [("operator", .string operator), ("left", ofNode left), ("right", ofNode right)]
  | .assignment operator left right =>
    tagged .assignmentExpression
      [("operator", .string operator), ("left", ofNode left), ("right", ofNode right)]
  | .conditional test consequent alternate =>
    tagged .conditionalExpression
      [("test", ofNode test), ("consequent", ofNode consequent), ("alternate", ofOption alternate)]
  | .member owner key computed =>
    tagged .memberExpression
      [("object", ofNode owner), ("property", ofNode key), ("computed", .bool computed)]
  | .call role callee arguments =>
    tagged (match role with | .plain => .callExpression | .construct => .newExpression)
      [("callee", ofNode callee), ("arguments", .array (ofList arguments))]
  | .sequence expressions =>
    tagged .sequenceExpression [("expressions", .array (ofList expressions))]

/-- The exchange forms of a list of trees. -/
def ofList : List Node → List Estree
  | [] => []
  | node :: nodes => ofNode node :: ofList nodes

/-- The exchange form of an optional tree, `null` if it is absent. -/
def ofOption : Option Node → Estree
  | none => .null
  | some node => ofNode node

end

end Estree

end ScriptTree
