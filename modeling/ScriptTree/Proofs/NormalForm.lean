import ScriptTree.Tree.Equality

/-!
The normal form of a tree, which forgets what equality of trees passes over.
-/

namespace ScriptTree

namespace Binary64

variable {x y : Binary64}

/-- One of the two zeros stands for both. -/
def withoutZeroSign (x : Binary64) : Binary64 := if x.isZero then .ofMagnitude 0 else x

theorem isZero_ofMagnitude : (ofMagnitude 0).isZero = true := by decide

theorem not_isNaN_of_isZero (h : x.isZero = true) : x.isNaN = false := by
  rw [isZero, beq_iff_eq] at h
  rw [isNaN, h]
  rfl

theorem withoutZeroSign_equals (x y : Binary64) : x.withoutZeroSign.equals y = x.equals y := by
  unfold withoutZeroSign
  split
  · rename_i hx
    -- what equals a zero is a zero
    have hy (z : Binary64) (hz : z.isZero = true) :
        (z.bits == y.bits || z.isZero && y.isZero) = y.isZero := by
      rw [hz, Bool.true_and, Bool.or_eq_right_iff_imp]
      intro hb
      have he : z = y := by
        cases z
        cases y
        simpa using hb
      rwa [← he]
    rw [equals, equals, hy _ isZero_ofMagnitude, hy x hx, not_isNaN_of_isZero hx,
      not_isNaN_of_isZero isZero_ofMagnitude]
  · rfl

theorem withoutZeroSign_eq (h : x.equals y = true) : x.withoutZeroSign = y.withoutZeroSign := by
  simp only [equals, Bool.and_eq_true, Bool.or_eq_true, beq_iff_eq] at h
  rcases h.2 with hb | ⟨hx, hy⟩
  · cases x
    cases y
    exact congrArg (fun bits => withoutZeroSign ⟨bits⟩) hb
  · rw [withoutZeroSign, withoutZeroSign, if_pos hx, if_pos hy]

end Binary64

namespace Node

mutual

/-- The tree without what equality passes over: spellings, but for those of numbers, and short forms
of object members. A number with a spelling loses the sign of zero. -/
def normal : Node → Node
  | program body => program (normals body)
  | emptyStatement => emptyStatement
  | expressionStatement expression => expressionStatement expression.normal
  | block body => block (normals body)
  | returnStatement argument => returnStatement (normalOption argument)
  | ifStatement test consequent alternate =>
    ifStatement test.normal consequent.normal (normalOption alternate)
  | switchStatement discriminant cases => switchStatement discriminant.normal (normals cases)
  | switchCase test consequent => switchCase (normalOption test) (normals consequent)
  | forStatement start test step body =>
    forStatement (normalOption start) (normalOption test) (normalOption step) body.normal
  | forEach kind left right body awaits =>
    forEach kind left.normal right.normal body.normal awaits
  | doWhile body test => doWhile body.normal test.normal
  | whileStatement test body => whileStatement test.normal body.normal
  | jump kind label => jump kind (normalOption label)
  | labeled label body => labeled label.normal body.normal
  | variableDeclaration kind declarations => variableDeclaration kind (normals declarations)
  | variableDeclarator target value => variableDeclarator target.normal (normalOption value)
  | function role isAsync isGenerator name params body =>
    function role isAsync isGenerator (normalOption name) (normals params) (normalOption body)
  | classDeclaration name superClass body =>
    classDeclaration (normalOption name) (normalOption superClass) body.normal
  | classBody members => classBody (normals members)
  | propertyDefinition isStatic key computed value =>
    propertyDefinition isStatic key.normal computed (normalOption value)
  | methodDefinition isStatic kind key computed value =>
    methodDefinition isStatic kind key.normal computed value.normal
  | importDeclaration specifiers source => importDeclaration (normals specifiers) source.normal
  | importTarget target localName => importTarget target localName.normal
  | importSpecifier imported localName => importSpecifier imported.normal localName.normal
  | exportStatement isDefault declaration => exportStatement isDefault declaration.normal
  | exportNamed specifiers source => exportNamed (normals specifiers) (normalOption source)
  | exportSpecifier localName exported => exportSpecifier localName.normal exported.normal
  | identifier name => identifier name
  | literal (.number value) raw =>
    literal (.number (if raw.isEmpty then value else value.withoutZeroSign)) raw
  | literal value _ => literal value ""
  | templateLiteral quasis expressions => templateLiteral (normals quasis) (normals expressions)
  | templateElement text => templateElement text
  | spread argument => spread argument.normal
  | thisExpression => thisExpression
  | array elements => array (normals elements)
  | object role properties => object role (normals properties)
  | property key value kind computed _ method =>
    property key.normal value.normal kind computed false method
  | arrowFunction params body => arrowFunction (normals params) body.normal
  | yieldExpression delegate argument => yieldExpression delegate (normalOption argument)
  | unary operator argument leading => unary operator argument.normal leading
  | update operator argument leading => update operator argument.normal leading
  | binary role operator left right => binary role operator left.normal right.normal
  | assignment operator left right => assignment operator left.normal right.normal
  | conditional test consequent alternate =>
    conditional test.normal consequent.normal (normalOption alternate)
  | member owner key computed => member owner.normal key.normal computed
  | call role callee arguments => call role callee.normal (normals arguments)
  | sequence expressions => sequence (normals expressions)

/-- The normal forms of a list of trees. -/
def normals : List Node → List Node
  | [] => []
  | node :: nodes => node.normal :: normals nodes

/-- The normal form of an optional tree. -/
def normalOption : Option Node → Option Node
  | none => none
  | some node => some node.normal

end

attribute [simp] normal

@[simp] theorem normals_eq_map (nodes : List Node) : normals nodes = nodes.map normal := by
  induction nodes with
  | nil => rfl
  | cons node nodes ih =>
    change node.normal :: normals nodes = _
    rw [ih, List.map_cons]

@[simp] theorem normalOption_eq_map (node : Option Node) :
    normalOption node = node.map normal := by
  cases node <;> rfl

theorem normal_same_literal (value : LiteralValue) (raw : String) (other : Node) :
    (literal value raw).normal.same other = (literal value raw).same other := by
  cases value with
  | number x =>
    have hx (y : Binary64) :
        (if raw.isEmpty then x else x.withoutZeroSign).equals y = x.equals y := by
      split
      · rfl
      · exact x.withoutZeroSign_equals y
    cases other with
    | literal value' =>
      cases value' with
      | number y => exact hx y
      | _ => rfl
    | _ => rfl
  | _ => rfl

/-- The normal form is equal to the same trees as the tree itself. -/
theorem normal_same (node other : Node) : node.normal.same other = node.same other := by
  revert other
  apply @Node.rec
    (fun node => ∀ other, node.normal.same other = node.same other)
    (fun nodes => ∀ others, sameList (normals nodes) others = sameList nodes others)
    (fun node => ∀ other, sameOption (normalOption node) other = sameOption node other)
  case literal => exact normal_same_literal
  case nil | none => exact fun _ => rfl
  case cons =>
    intro node nodes ih ihs others
    cases others with
    | nil => rfl
    | cons other others => simp only [normals, sameList, ih, ihs]
  case some =>
    intro node ih other
    cases other with
    | none => rfl
    | some other => exact ih other
  all_goals
    intros
    unfold normal same
    simp only [*]

end Node

end ScriptTree
