import ScriptTree.Tree.Node

/-!
The children of a node, each with the name of the field that holds it. A child is smaller than its
node, which is why traversals end.
-/

namespace ScriptTree

namespace Node

/-- A field that holds one node. -/
def fieldOne (field : String) (node : Node) : List (String × Node) := [(field, node)]

/-- A field that may be empty. -/
def fieldOption (field : String) (node : Option Node) : List (String × Node) :=
  node.toList.map (field, ·)

/-- A field that holds a list. -/
def fieldList (field : String) (nodes : List Node) : List (String × Node) := nodes.map (field, ·)

/-- The children of a node in the order of its fields. -/
def children : Node → List (String × Node)
  | program body => fieldList "body" body
  | emptyStatement => []
  | expressionStatement expression => fieldOne "expression" expression
  | block body => fieldList "body" body
  | returnStatement argument => fieldOption "argument" argument
  | ifStatement test consequent alternate =>
    fieldOne "test" test ++ fieldOne "consequent" consequent ++ fieldOption "alternate" alternate
  | switchStatement discriminant cases =>
    fieldOne "discriminant" discriminant ++ fieldList "cases" cases
  | switchCase test consequent => fieldOption "test" test ++ fieldList "consequent" consequent
  | forStatement start test step body =>
    fieldOption "init" start ++ fieldOption "test" test ++ fieldOption "update" step ++
      fieldOne "body" body
  | forEach _ left right body _ =>
    fieldOne "left" left ++ fieldOne "right" right ++ fieldOne "body" body
  | doWhile body test => fieldOne "body" body ++ fieldOne "test" test
  | whileStatement test body => fieldOne "test" test ++ fieldOne "body" body
  | jump _ label => fieldOption "label" label
  | labeled label body => fieldOne "label" label ++ fieldOne "body" body
  | variableDeclaration _ declarations => fieldList "declarations" declarations
  | variableDeclarator target value => fieldOne "id" target ++ fieldOption "init" value
  | function _ _ _ name params body =>
    fieldOption "id" name ++ fieldList "params" params ++ fieldOption "body" body
  | classDeclaration name superClass body =>
    fieldOption "id" name ++ fieldOption "superClass" superClass ++ fieldOne "body" body
  | classBody members => fieldList "body" members
  | propertyDefinition _ key _ value => fieldOne "key" key ++ fieldOption "value" value
  | methodDefinition _ _ key _ value => fieldOne "key" key ++ fieldOne "value" value
  | importDeclaration specifiers source =>
    fieldList "specifiers" specifiers ++ fieldOne "source" source
  | importTarget _ localName => fieldOne "local" localName
  | importSpecifier imported localName =>
    fieldOne "imported" imported ++ fieldOne "local" localName
  | exportStatement _ declaration => fieldOne "declaration" declaration
  | exportNamed specifiers source =>
    fieldList "specifiers" specifiers ++ fieldOption "source" source
  | exportSpecifier localName exported =>
    fieldOne "local" localName ++ fieldOne "exported" exported
  | identifier _ => []
  | literal _ _ => []
  | templateLiteral quasis expressions =>
    fieldList "quasis" quasis ++ fieldList "expressions" expressions
  | templateElement _ => []
  | spread argument => fieldOne "argument" argument
  | thisExpression => []
  | array elements => fieldList "elements" elements
  | object _ properties => fieldList "properties" properties
  | property key value _ _ _ _ => fieldOne "key" key ++ fieldOne "value" value
  | arrowFunction params body => fieldList "params" params ++ fieldOne "body" body
  | yieldExpression _ argument => fieldOption "argument" argument
  | unary _ argument _ => fieldOne "argument" argument
  | update _ argument _ => fieldOne "argument" argument
  | binary _ _ left right => fieldOne "left" left ++ fieldOne "right" right
  | assignment _ left right => fieldOne "left" left ++ fieldOne "right" right
  | conditional test consequent alternate =>
    fieldOne "test" test ++ fieldOne "consequent" consequent ++ fieldOption "alternate" alternate
  | member owner key _ => fieldOne "object" owner ++ fieldOne "property" key
  | call _ callee arguments => fieldOne "callee" callee ++ fieldList "arguments" arguments
  | sequence expressions => fieldList "expressions" expressions

theorem mem_fieldOne {field : String} {node : Node} {child : String × Node}
    (h : child ∈ fieldOne field node) : child.2 = node := by
  simp [fieldOne] at h
  simp [h]

theorem sizeOf_lt_of_mem_fieldOption {field : String} {node : Option Node} {child : String × Node}
    (h : child ∈ fieldOption field node) : sizeOf child.2 < sizeOf node := by
  cases node with
  | none => simp [fieldOption] at h
  | some node =>
    simp [fieldOption] at h
    simp [h]

theorem sizeOf_lt_of_mem_fieldList {field : String} {nodes : List Node} {child : String × Node}
    (h : child ∈ fieldList field nodes) : sizeOf child.2 < sizeOf nodes := by
  obtain ⟨node, hnode, rfl⟩ := List.mem_map.1 h
  exact List.sizeOf_lt_of_mem hnode

/-- A child is smaller than its node. -/
theorem sizeOf_child_lt {node : Node} {child : String × Node} (h : child ∈ node.children) :
    sizeOf child.2 < sizeOf node := by
  have one {field : String} {n : Node} (hc : child ∈ fieldOne field n) :
      sizeOf child.2 = sizeOf n := congrArg sizeOf (mem_fieldOne hc)
  have option {field : String} {n : Option Node} (hc : child ∈ fieldOption field n) :
      sizeOf child.2 < sizeOf n := sizeOf_lt_of_mem_fieldOption hc
  have list {field : String} {n : List Node} (hc : child ∈ fieldList field n) :
      sizeOf child.2 < sizeOf n := sizeOf_lt_of_mem_fieldList hc
  cases node <;> simp only [children, List.mem_append, List.not_mem_nil] at h <;>
    simp only [Node.program.sizeOf_spec, Node.expressionStatement.sizeOf_spec,
      Node.block.sizeOf_spec, Node.returnStatement.sizeOf_spec, Node.ifStatement.sizeOf_spec,
      Node.switchStatement.sizeOf_spec, Node.switchCase.sizeOf_spec, Node.forStatement.sizeOf_spec,
      Node.forEach.sizeOf_spec, Node.doWhile.sizeOf_spec, Node.whileStatement.sizeOf_spec,
      Node.jump.sizeOf_spec, Node.labeled.sizeOf_spec, Node.variableDeclaration.sizeOf_spec,
      Node.variableDeclarator.sizeOf_spec, Node.function.sizeOf_spec,
      Node.classDeclaration.sizeOf_spec, Node.classBody.sizeOf_spec,
      Node.propertyDefinition.sizeOf_spec, Node.methodDefinition.sizeOf_spec,
      Node.importDeclaration.sizeOf_spec, Node.importTarget.sizeOf_spec,
      Node.importSpecifier.sizeOf_spec, Node.exportStatement.sizeOf_spec,
      Node.exportNamed.sizeOf_spec, Node.exportSpecifier.sizeOf_spec,
      Node.templateLiteral.sizeOf_spec, Node.spread.sizeOf_spec, Node.array.sizeOf_spec,
      Node.object.sizeOf_spec, Node.property.sizeOf_spec, Node.arrowFunction.sizeOf_spec,
      Node.yieldExpression.sizeOf_spec, Node.unary.sizeOf_spec, Node.update.sizeOf_spec,
      Node.binary.sizeOf_spec, Node.assignment.sizeOf_spec, Node.conditional.sizeOf_spec,
      Node.member.sizeOf_spec, Node.call.sizeOf_spec, Node.sequence.sizeOf_spec] <;>
    grind

end Node

end ScriptTree
