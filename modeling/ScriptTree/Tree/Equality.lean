import ScriptTree.Tree.Node

/-!
When two trees are the same. The spelling of a literal and the short form of an object member do not
count, and numbers are compared as numbers.
-/

namespace ScriptTree

/-- Whether two literals have the same value. A NaN is not even the same as itself. -/
def LiteralValue.same : LiteralValue → LiteralValue → Bool
  | .string a, .string b => a == b
  | .number a, .number b => a.equals b
  | .boolean a, .boolean b => a == b
  | .null, .null => true
  | .regex a, .regex b => a == b
  | _, _ => false

namespace Node

mutual

/-- Whether two trees are the same, up to spellings that carry no meaning. -/
def same : Node → Node → Bool
  | program body, other => match other with
    | program body' => sameList body body'
    | _ => false
  | emptyStatement, other => match other with
    | emptyStatement => true
    | _ => false
  | expressionStatement expression, other => match other with
    | expressionStatement expression' => same expression expression'
    | _ => false
  | block body, other => match other with
    | block body' => sameList body body'
    | _ => false
  | returnStatement argument, other => match other with
    | returnStatement argument' => sameOption argument argument'
    | _ => false
  | ifStatement test consequent alternate, other => match other with
    | ifStatement test' consequent' alternate' =>
      same test test' && same consequent consequent' && sameOption alternate alternate'
    | _ => false
  | switchStatement discriminant cases, other => match other with
    | switchStatement discriminant' cases' =>
      same discriminant discriminant' && sameList cases cases'
    | _ => false
  | switchCase test consequent, other => match other with
    | switchCase test' consequent' => sameOption test test' && sameList consequent consequent'
    | _ => false
  | forStatement start test step body, other => match other with
    | forStatement start' test' step' body' =>
      sameOption start start' && sameOption test test' && sameOption step step' &&
        same body body'
    | _ => false
  | forEach kind left right body awaits, other => match other with
    | forEach kind' left' right' body' awaits' =>
      kind == kind' && same left left' && same right right' && same body body' && awaits == awaits'
    | _ => false
  | doWhile body test, other => match other with
    | doWhile body' test' => same body body' && same test test'
    | _ => false
  | whileStatement test body, other => match other with
    | whileStatement test' body' => same test test' && same body body'
    | _ => false
  | jump kind label, other => match other with
    | jump kind' label' => kind == kind' && sameOption label label'
    | _ => false
  | labeled label body, other => match other with
    | labeled label' body' => same label label' && same body body'
    | _ => false
  | variableDeclaration kind declarations, other => match other with
    | variableDeclaration kind' declarations' =>
      kind == kind' && sameList declarations declarations'
    | _ => false
  | variableDeclarator target value, other => match other with
    | variableDeclarator target' value' => same target target' && sameOption value value'
    | _ => false
  | function role isAsync isGenerator name params body, other => match other with
    | function role' isAsync' isGenerator' name' params' body' =>
      role == role' && isAsync == isAsync' && isGenerator == isGenerator' &&
        sameOption name name' && sameList params params' && sameOption body body'
    | _ => false
  | classDeclaration name superClass body, other => match other with
    | classDeclaration name' superClass' body' =>
      sameOption name name' && sameOption superClass superClass' && same body body'
    | _ => false
  | classBody members, other => match other with
    | classBody members' => sameList members members'
    | _ => false
  | propertyDefinition isStatic key computed value, other => match other with
    | propertyDefinition isStatic' key' computed' value' =>
      isStatic == isStatic' && same key key' && computed == computed' && sameOption value value'
    | _ => false
  | methodDefinition isStatic kind key computed value, other => match other with
    | methodDefinition isStatic' kind' key' computed' value' =>
      isStatic == isStatic' && kind == kind' && same key key' && computed == computed' &&
        same value value'
    | _ => false
  | importDeclaration specifiers source, other => match other with
    | importDeclaration specifiers' source' =>
      sameList specifiers specifiers' && same source source'
    | _ => false
  | importTarget target localName, other => match other with
    | importTarget target' localName' => target == target' && same localName localName'
    | _ => false
  | importSpecifier imported localName, other => match other with
    | importSpecifier imported' localName' => same imported imported' && same localName localName'
    | _ => false
  | exportStatement isDefault declaration, other => match other with
    | exportStatement isDefault' declaration' =>
      isDefault == isDefault' && same declaration declaration'
    | _ => false
  | exportNamed specifiers source, other => match other with
    | exportNamed specifiers' source' =>
      sameList specifiers specifiers' && sameOption source source'
    | _ => false
  | exportSpecifier localName exported, other => match other with
    | exportSpecifier localName' exported' => same localName localName' && same exported exported'
    | _ => false
  | identifier name, other => match other with
    | identifier name' => name == name'
    | _ => false
  | literal value _, other => match other with
    | literal value' _ => value.same value'
    | _ => false
  | templateLiteral quasis expressions, other => match other with
    | templateLiteral quasis' expressions' =>
      sameList quasis quasis' && sameList expressions expressions'
    | _ => false
  | templateElement text, other => match other with
    | templateElement text' => text == text'
    | _ => false
  | spread argument, other => match other with
    | spread argument' => same argument argument'
    | _ => false
  | thisExpression, other => match other with
    | thisExpression => true
    | _ => false
  | array elements, other => match other with
    | array elements' => sameList elements elements'
    | _ => false
  | object role properties, other => match other with
    | object role' properties' => role == role' && sameList properties properties'
    | _ => false
  | property key value kind computed _ method, other => match other with
    | property key' value' kind' computed' _ method' =>
      same key key' && same value value' && kind == kind' && computed == computed' &&
        method == method'
    | _ => false
  | arrowFunction params body, other => match other with
    | arrowFunction params' body' => sameList params params' && same body body'
    | _ => false
  | yieldExpression delegate argument, other => match other with
    | yieldExpression delegate' argument' =>
      delegate == delegate' && sameOption argument argument'
    | _ => false
  | unary operator argument leading, other => match other with
    | unary operator' argument' leading' =>
      operator == operator' && same argument argument' && leading == leading'
    | _ => false
  | update operator argument leading, other => match other with
    | update operator' argument' leading' =>
      operator == operator' && same argument argument' && leading == leading'
    | _ => false
  | binary role operator left right, other => match other with
    | binary role' operator' left' right' =>
      role == role' && operator == operator' && same left left' && same right right'
    | _ => false
  | assignment operator left right, other => match other with
    | assignment operator' left' right' =>
      operator == operator' && same left left' && same right right'
    | _ => false
  | conditional test consequent alternate, other => match other with
    | conditional test' consequent' alternate' =>
      same test test' && same consequent consequent' && sameOption alternate alternate'
    | _ => false
  | member owner key computed, other => match other with
    | member owner' key' computed' =>
      same owner owner' && same key key' && computed == computed'
    | _ => false
  | call role callee arguments, other => match other with
    | call role' callee' arguments' =>
      role == role' && same callee callee' && sameList arguments arguments'
    | _ => false
  | sequence expressions, other => match other with
    | sequence expressions' => sameList expressions expressions'
    | _ => false

/-- Whether two lists hold the same trees in the same order. -/
def sameList : List Node → List Node → Bool
  | [], others => others.isEmpty
  | node :: nodes, others => match others with
    | other :: others => same node other && sameList nodes others
    | [] => false

/-- Whether two optional trees are both absent or the same. -/
def sameOption : Option Node → Option Node → Bool
  | none, other => other.isNone
  | some node, other => match other with
    | some other => same node other
    | none => false

end

end Node

end ScriptTree
