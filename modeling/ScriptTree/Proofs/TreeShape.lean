import ScriptTree.Grammar.Frame
import ScriptTree.Tree.Walk

/-!
The shape of a tree.

Any node may stand in any place, so it takes a test to tell the trees of programs from others. The
test of a node looks at its children only; a tree is sound if all its nodes pass, at every depth.
-/

namespace ScriptTree

namespace Node

/-- Nodes that stand for a value. A class is one, though it can also be a statement. -/
def isExpression : Node → Bool
  | identifier .. | literal .. | templateLiteral .. | spread .. | thisExpression | array ..
  | object .. | arrowFunction .. | yieldExpression .. | unary .. | update .. | binary ..
  | assignment .. | conditional .. | member .. | call .. | sequence .. | classDeclaration .. => true
  | function role .. => role == .expression
  | _ => false

/-- Classes. -/
def isClass : Node → Bool
  | classDeclaration .. => true
  | _ => false

/-- Of the nodes that stand for a value only classes count as statements. -/
theorem isClass_of_isExpression {node : Node} (h : node.isExpression = true)
    (hs : node.isStatement = true) : node.isClass = true := by
  cases node with
  | classDeclaration name superClass body => rfl
  | function role isAsync isGenerator name params body =>
    cases role with
    | declaration => cases h
    | expression => cases hs
  | object role properties => cases role <;> cases hs
  | binary role operator left right => cases role <;> cases hs
  | call role callee arguments => cases role <;> cases hs
  | _ => first | exact absurd hs Bool.false_ne_true | exact absurd h Bool.false_ne_true

/-- Blocks. -/
def isBlock : Node → Bool
  | block .. => true
  | _ => false

/-- Labeled statements. -/
def isLabeled : Node → Bool
  | labeled .. => true
  | _ => false

/-- What may stand in the first clause of a loop head. -/
def isLoopStart : Node → Bool
  | variableDeclaration .. => true
  | node => node.isExpression

theorem isStatement_of_isBlock {node : Node} (h : node.isBlock = true) :
    node.isStatement = true := by
  cases node with
  | block body => rfl
  | _ => cases h

theorem isStatement_of_isLabeled {node : Node} (h : node.isLabeled = true) :
    node.isStatement = true := by
  cases node with
  | labeled label body => rfl
  | _ => cases h

theorem isLoopStart_of_isExpression {node : Node} (h : node.isExpression = true) :
    node.isLoopStart = true := by
  cases node with
  | variableDeclaration kind declarations => rfl
  | _ => exact h

/-- The functions that methods have for their values. -/
def isNamelessFunction : Node → Bool
  | function .expression _ _ none _ _ => true
  | _ => false

/-- Members of a class. -/
def isClassMember : Node → Bool
  | methodDefinition .. | propertyDefinition .. => true
  | _ => false

/-- Members of an object. -/
def isObjectMember : Node → Bool
  | property .. | spread .. => true
  | _ => false

/-- Cases of a switch. -/
def isCase : Node → Bool
  | switchCase .. => true
  | _ => false

/-- Variables of a declaration. -/
def isDeclarator : Node → Bool
  | variableDeclarator .. => true
  | _ => false

/-- The members of a class as a whole. -/
def isClassBody : Node → Bool
  | classBody .. => true
  | _ => false

/-- Texts of a template. -/
def isTemplateText : Node → Bool
  | templateElement .. => true
  | _ => false

/-- Whether the children of a node are such as can stand in their places. -/
def isWellFormed : Node → Bool
  | program body => body.all isStatement
  | emptyStatement => true
  | expressionStatement expression => expression.isExpression
  | block body => body.all isStatement
  | returnStatement argument => argument.all isExpression
  | ifStatement test consequent alternate =>
    test.isExpression && consequent.isStatement && alternate.all isStatement
  | switchStatement discriminant cases => discriminant.isExpression && cases.all isCase
  | switchCase test consequent => test.all isExpression && consequent.all isStatement
  | forStatement start test step body =>
    start.all isLoopStart && test.all isExpression && step.all isExpression && body.isStatement
  | forEach _ left right body _ => left.isLoopStart && right.isExpression && body.isStatement
  | doWhile body test => body.isStatement && test.isExpression
  | whileStatement test body => test.isExpression && body.isStatement
  | jump _ label => label.all isIdentifier
  | labeled label body => label.isIdentifier && body.isStatement
  | variableDeclaration _ declarations => declarations.all isDeclarator
  | variableDeclarator target value => target.isExpression && value.all isExpression
  | function _ _ _ name params body =>
    name.all isIdentifier && params.all isExpression && body.any isBlock
  | classDeclaration name superClass body =>
    name.all isIdentifier && superClass.all isExpression && body.isClassBody
  | classBody members => members.all isClassMember
  | propertyDefinition _ key _ value => key.isExpression && value.all isExpression
  | methodDefinition _ _ key _ value => key.isExpression && value.isNamelessFunction
  | importDeclaration _ source => source.isExpression
  | importTarget _ localName => localName.isIdentifier
  | importSpecifier imported localName => imported.isIdentifier && localName.isIdentifier
  | exportStatement isDefault declaration =>
    declaration.isStatement || (isDefault && declaration.isExpression)
  | exportNamed _ source => source.all isExpression
  | exportSpecifier localName exported => localName.isIdentifier && exported.isIdentifier
  | identifier _ | literal .. | templateElement _ | thisExpression => true
  | templateLiteral quasis expressions =>
    quasis.all isTemplateText && expressions.all isExpression &&
      quasis.length == expressions.length + 1
  | spread argument => argument.isExpression
  | array elements => elements.all isExpression
  | object _ properties => properties.all isObjectMember
  | property key value _ _ _ _ => key.isExpression && value.isExpression
  | arrowFunction params body => params.all isExpression && (body.isBlock || body.isExpression)
  | yieldExpression _ argument => argument.all isExpression
  | unary _ argument _ => argument.isExpression
  | update _ argument leading => argument.isExpression && (leading || argument.isUpdatable)
  | binary role operator left right =>
    left.isExpression && right.isExpression && (role == .logical) == Operator.isLogical operator
  | assignment _ left right => left.isAssignable && right.isExpression
  | conditional test consequent alternate =>
    test.isExpression && consequent.isExpression && alternate.any isExpression
  | member owner key _ => owner.isExpression && key.isExpression
  | call role callee arguments =>
    callee.isExpression && arguments.all isExpression && (role == .construct || callee.isCallable)
  | sequence expressions => expressions.all isExpression && decide (2 ≤ expressions.length)

/-- The nodes that a walk meets do not depend on where the walk started. -/
theorem entered_walkFrom (node : Node) (ancestors : List PathStep) :
    (walkFrom (fun _ _ => true) node ancestors).filterMap entered? = node.preorder := by
  have step (path : List PathStep) :
      (walkFrom (fun _ _ => true) node path).filterMap entered? =
        node :: node.children.attach.flatMap fun child => child.val.2.preorder := by
    rw [walkFrom, if_pos rfl]
    simp only [List.cons_append, List.filterMap_cons, entered?, List.filterMap_append,
      List.filterMap_nil, List.append_nil, List.filterMap_flatMap]
    congr 2
    funext child
    exact entered_walkFrom child.val.2 _
  rw [preorder, walk, step ancestors, step []]
termination_by sizeOf node
decreasing_by exact sizeOf_child_lt child.property

/-- The nodes of a tree are its root and the nodes of the trees below. -/
theorem preorder_eq (node : Node) :
    node.preorder = node :: node.children.flatMap fun child => child.2.preorder := by
  rw [preorder, walk, walkFrom, if_pos rfl]
  simp only [List.cons_append, List.filterMap_cons, entered?, List.filterMap_append,
    List.filterMap_nil, List.append_nil, List.filterMap_flatMap, entered_walkFrom]
  congr 1
  have hplain : (node.children.attach.flatMap fun child => child.val.2.preorder) =
      node.children.attach.unattach.flatMap fun child => child.2.preorder :=
    List.flatMap_subtype fun _ _ => rfl
  rw [hplain, List.unattach_attach]

theorem mem_preorder_self (node : Node) : node ∈ node.preorder := by
  rw [preorder_eq]
  exact List.mem_cons_self

theorem preorder_subset_of_child {node child : Node} {field : String}
    (h : (field, child) ∈ node.children) : child.preorder ⊆ node.preorder := by
  intro below hb
  rw [preorder_eq node, List.mem_cons, List.mem_flatMap]
  exact Or.inr ⟨(field, child), h, hb⟩

/-- The nodes of a tree below are nodes of the whole tree. -/
theorem preorder_subset {tree node : Node} (h : node ∈ tree.preorder) :
    node.preorder ⊆ tree.preorder := by
  rw [preorder_eq tree, List.mem_cons, List.mem_flatMap] at h
  obtain rfl | ⟨field, hin, hn⟩ := h
  · exact List.Subset.refl _
  · exact List.Subset.trans (preorder_subset hn) (preorder_subset_of_child hin)
termination_by sizeOf tree
decreasing_by exact sizeOf_child_lt hin

/-- What holds of all nodes of a tree holds of its root and of all nodes of the trees below. -/
theorem forall_mem_preorder {node : Node} {P : Node → Prop} : (∀ below ∈ node.preorder, P below) ↔
    P node ∧ ∀ field ∈ node.children, ∀ below ∈ field.2.preorder, P below := by
  rw [preorder_eq, List.forall_mem_cons, List.forall_mem_flatMap]

/-- All nodes of a tree are well formed. -/
def Sound (tree : Node) : Prop := ∀ node ∈ tree.preorder, node.isWellFormed = true

/-- The trees in all fields are sound. -/
def SoundFields (fields : List (String × Node)) : Prop := ∀ field ∈ fields, field.2.Sound

@[simp] theorem soundFields_nil : SoundFields [] := nofun

@[simp] theorem soundFields_append {fields others : List (String × Node)} :
    SoundFields (fields ++ others) ↔ SoundFields fields ∧ SoundFields others :=
  List.forall_mem_append

@[simp] theorem soundFields_one {field : String} {node : Node} :
    SoundFields (fieldOne field node) ↔ node.Sound := by
  simp [SoundFields, fieldOne]

@[simp] theorem soundFields_option {field : String} {node : Option Node} :
    SoundFields (fieldOption field node) ↔ ∀ tree ∈ node, tree.Sound := by
  simp [SoundFields, fieldOption]

@[simp] theorem soundFields_list {field : String} {nodes : List Node} :
    SoundFields (fieldList field nodes) ↔ ∀ tree ∈ nodes, tree.Sound := by
  simp [SoundFields, fieldList]

/-- A node is sound if its children are such as can stand in their places, and are sound. -/
theorem sound_of {node : Node} (h : node.isWellFormed = true) (hc : SoundFields node.children) :
    node.Sound :=
  forall_mem_preorder.mpr ⟨h, hc⟩

theorem Sound.root {node : Node} (h : node.Sound) : node.isWellFormed = true :=
  (forall_mem_preorder.mp h).1

theorem Sound.fields {node : Node} (h : node.Sound) : SoundFields node.children :=
  (forall_mem_preorder.mp h).2

end Node

end ScriptTree
