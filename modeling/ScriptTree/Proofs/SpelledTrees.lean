import ScriptTree.Proofs.SpelledNodes

/-!
The trees of programs are spelled as the source can spell them: no rule of the grammar builds a node
that is spelled otherwise.
-/

namespace ScriptTree

namespace ParserM

open Node

section Leaves

theorem gives_identifier : Gives identifier Node.Spelled :=
  gives_elementary.token.andThen fun _ => gives_elementary.nextToken.andThen fun _ =>
    gives_pure (spelled_identifier _)

theorem gives_name : Gives name Node.Spelled := by
  refine gives_elementary.token.andThen fun word => gives_ite ?_ (gives_reject _ _)
  refine (gives_reread .names).andThen fun again => ?_
  exact gives_elementary.nextToken.andThen fun _ => gives_pure (spelled_identifier _)

/-- What a number or a regular expression starts with is known from its token. -/
theorem gives_literal : Gives literal Node.Spelled := by
  refine gives_token.bind fun word ⟨place, hat⟩ => ?_
  have close {value : LiteralValue} (h : (Node.literal value word.raw).isSpelled = true) :
      Gives (do let value ← pure value; nextToken; pure (Node.literal value word.raw))
        Node.Spelled := by
    rw [pure_bind]
    exact gives_elementary.nextToken.andThen fun _ => gives_pure (spelled_of h nofun)
  dsimp only
  generalize hk : word.kind = kind
  split
  · split
    · exact close (hat.canStart_number hk)
    · exact (gives_reject (fun _ => False) _).bind nofun
  · exact close rfl
  · exact close rfl
  · exact close (hat.opensRegex hk)
  · exact (gives_reject (fun _ => False) _).bind nofun

theorem gives_reservedWord : Gives reservedWord Node.Spelled := by
  refine gives_elementary.token.andThen fun word => gives_elementary.nextToken.andThen fun _ => ?_
  exact gives_ite (gives_pure (spelled_of rfl nofun)) (gives_pure (spelled_identifier _))

theorem gives_regexOperand : Gives regexOperand Node.Spelled := by
  refine (gives_reread .regexes).andThen fun word => ?_
  cases word with
  | none => exact gives_reject _ _
  | some word => exact gives_ite gives_literal (gives_reject _ _)

theorem gives_memberAccess {owner : Node} (ho : owner.Spelled) :
    Gives (memberAccess owner) Node.Spelled := by
  refine (gives_nextTokenIn .names).andThen fun word => ?_
  cases word with
  | none => exact gives_reject _ _
  | some word =>
    refine gives_ite (gives_elementary.nextToken.andThen fun _ => gives_pure ?_) (gives_reject _ _)
    exact spelled_of rfl (by simp [children, ho, spelled_identifier])

theorem gives_functionName (word : Option Token) :
    Gives (functionName word) fun name => ∀ tree ∈ name, tree.Spelled := by
  cases word with
  | none => exact gives_pure nofun
  | some word =>
    refine gives_ite (gives_elementary.nextToken.andThen fun _ => gives_pure ?_) (gives_pure nofun)
    simp [spelled_identifier]

theorem gives_className : Gives className fun name => ∀ tree ∈ name, tree.Spelled := by
  refine (gives_elementary.pair.isAt _).andThen fun _ => gives_ite ?_ (gives_pure nofun)
  exact gives_identifier.bind fun name hname => gives_pure (by simp [hname])

theorem gives_jump : Gives jump Node.Spelled := by
  refine gives_elementary.token.andThen fun word => gives_elementary.nextToken.andThen fun _ => ?_
  refine (gives_elementary.pair.accept _).andThen fun _ => gives_pure (spelled_of rfl ?_)
  simp only [children, spelledFields_option]
  split
  · simp
  · simp [spelled_identifier]

theorem gives_moduleName : Gives moduleName Node.Spelled :=
  (gives_elementary.pair.isAt _).andThen fun _ => gives_ite gives_literal (gives_reject _ _)

theorem gives_renamed {first : Node} (h : first.Spelled) : Gives (renamed first) Node.Spelled :=
  (gives_elementary.pair.acceptText _ _).andThen fun _ => gives_ite gives_name (gives_pure h)

theorem gives_importSpecifier : Gives importSpecifier Node.Spelled := by
  refine gives_name.bind fun imported hi => (gives_renamed hi).bind fun localName hl => ?_
  exact gives_pure (spelled_of rfl (by simp [children, hi, hl]))

theorem gives_exportSpecifier : Gives exportSpecifier Node.Spelled := by
  refine gives_name.bind fun localName hl => (gives_renamed hl).bind fun exported he => ?_
  exact gives_pure (spelled_of rfl (by simp [children, hl, he]))

theorem spelled_importTarget {localName : Node} (h : localName.Spelled) (target : ImportTarget) :
    (importTarget target localName).Spelled :=
  spelled_of rfl (by simp [children, h])

theorem gives_importBindings :
    Gives importBindings fun nodes => ∀ node ∈ nodes, node.Spelled := by
  refine (gives_elementary.pair.acceptText _ _).andThen fun _ => gives_ite ?_ ?_
  · refine (gives_elementary.pair.requireText _ _).andThen fun _ => ?_
    refine gives_name.bind fun localName hl => gives_pure ?_
    exact List.forall_mem_singleton.mpr (spelled_importTarget hl _)
  · exact (gives_elementary.require _).andThen fun _ => gives_importSpecifier.closedList _

theorem gives_importSpecifiers :
    Gives importSpecifiers fun nodes => ∀ node ∈ nodes, node.Spelled := by
  refine gives_elementary.current.andThen fun word => gives_ite ?_ gives_importBindings
  refine gives_name.bind fun localName hl => ?_
  refine (gives_elementary.pair.accept _).andThen fun _ => gives_ite ?_ ?_
  · refine gives_importBindings.bind fun others hothers => gives_pure ?_
    exact List.forall_mem_cons.mpr ⟨spelled_importTarget hl _, hothers⟩
  · exact gives_pure (List.forall_mem_singleton.mpr (spelled_importTarget hl _))

theorem gives_importDeclaration : Gives importDeclaration Node.Spelled := by
  have source (specifiers : List Node) (hs : ∀ node ∈ specifiers, node.Spelled) : Gives (do
      let source ← moduleName
      let _ ← accept .semicolon
      pure (Node.importDeclaration specifiers source)) Node.Spelled := by
    refine gives_moduleName.bind fun source hsource => ?_
    refine (gives_elementary.pair.accept _).andThen fun _ => gives_pure (spelled_of rfl ?_)
    simpa [children, hsource] using hs
  refine gives_elementary.nextToken.andThen fun _ => ?_
  refine (gives_elementary.pair.isAt _).andThen fun _ => gives_ite ?_ ?_
  · exact source [] (List.forall_mem_nil _)
  · refine (gives_importSpecifiers.within _).bind fun specifiers hs => ?_
    refine (gives_elementary.pair.requireText _ _).andThen fun _ => ?_
    exact (gives_pure hs).bind source

theorem gives_exportNamed : Gives exportNamed Node.Spelled := by
  refine gives_elementary.nextToken.andThen fun _ => ?_
  have hlist : Gives (do commaList .closeBrace exportSpecifier (← budget))
      fun nodes => ∀ node ∈ nodes, node.Spelled :=
    gives_elementary.budget.andThen fun rounds => gives_exportSpecifier.commaList _ rounds
  refine (hlist.within _).bind fun specifiers hs => (gives_elementary.require _).andThen fun _ => ?_
  have ending (source : Option Node) (h : ∀ tree ∈ source, tree.Spelled) : Gives (do
      let _ ← accept .semicolon
      pure (Node.exportNamed specifiers source)) Node.Spelled := by
    refine (gives_elementary.pair.accept _).andThen fun _ => gives_pure (spelled_of rfl ?_)
    simpa [children] using ⟨hs, h⟩
  refine (gives_elementary.pair.acceptText _ _).andThen fun _ => gives_ite ?_ ?_
  · refine gives_moduleName.bind fun source hsource => ?_
    exact (gives_pure (by simp [hsource])).bind ending
  · exact (gives_pure (by simp)).bind ending

end Leaves

/-- The goals inside a rule give trees that are spelled as the source can spell them. -/
def Spelling (sub : Goal → ParserM Node) : Prop := ∀ goal, Gives (sub goal) Node.Spelled

namespace Spelling

variable {sub : Goal → ParserM Node} (spelling : Spelling sub)
include spelling

theorem operandAt (kind : NodeKind) (slot : Slot) : Gives (operandAt sub kind slot) Node.Spelled :=
  (spelling .operand).within _

theorem statementAt (kind : NodeKind) (slot : Slot) :
    Gives (statementAt sub kind slot) Node.Spelled :=
  (spelling .statement).within _

section Expressions

theorem templateParts (rounds : Nat) : Gives (templateParts sub rounds) fun parts =>
    (∀ node ∈ parts.1, node.Spelled) ∧ ∀ node ∈ parts.2, node.Spelled := by
  induction rounds with
  | zero => exact gives_throw _ _
  | succ rounds ih =>
    refine (gives_nextTokenIn .templateText).andThen fun chunk => ?_
    cases chunk with
    | none => exact gives_reject _ _
    | some chunk =>
      have htext : (templateElement chunk.value).Spelled := spelled_of rfl nofun
      refine gives_ite (gives_elementary.nextToken.andThen fun _ => ?_) ?_
      · refine (spelling.operandAt _ _).bind fun expression he => ?_
        refine (gives_elementary.pair.isAt _).andThen fun _ => gives_ite ?_ (gives_reject _ _)
        refine ih.bind fun parts ⟨ht, hx⟩ => gives_pure ?_
        exact ⟨List.forall_mem_cons.mpr ⟨htext, ht⟩, List.forall_mem_cons.mpr ⟨he, hx⟩⟩
      · exact gives_pure ⟨List.forall_mem_singleton.mpr htext, nofun⟩

theorem template : Gives (template sub) Node.Spelled := by
  refine gives_elementary.budget.andThen fun rounds => ?_
  refine (spelling.templateParts rounds).bind fun parts ⟨ht, hx⟩ => ?_
  refine gives_elementary.nextToken.andThen fun _ => gives_pure (spelled_of rfl ?_)
  simpa [children] using ⟨ht, hx⟩

theorem spread : Gives (spread sub) Node.Spelled := by
  refine gives_elementary.nextToken.andThen fun _ => ?_
  refine (spelling.operandAt _ _).bind fun argument ha => gives_pure ?_
  exact spelled_of rfl (by simp [children, ha])

theorem array : Gives (array sub) Node.Spelled := by
  refine gives_elementary.nextToken.andThen fun _ => ?_
  refine ((spelling.operandAt _ _).closedList _).bind fun elements he => gives_pure ?_
  exact spelled_of rfl (by simpa [children] using he)

theorem block : Gives (block sub) Node.Spelled := by
  refine (gives_elementary.require _).andThen fun _ => gives_elementary.budget.andThen fun _ => ?_
  refine ((spelling.statementAt _ _).manyWhile _ _).bind fun body hb => ?_
  refine (gives_elementary.require _).andThen fun _ => gives_pure (spelled_of rfl ?_)
  simpa [children] using hb

theorem arrowBody {params : List Node} (hp : ∀ node ∈ params, node.Spelled) :
    Gives (arrowBody sub params) Node.Spelled := by
  have close (body : Node) (hb : body.Spelled) :
      Gives (pure (Node.arrowFunction params body)) Node.Spelled :=
    gives_pure (spelled_of rfl (by simpa [children, hb] using hp))
  refine (gives_elementary.pair.isAt _).andThen fun _ => gives_ite ?_ ?_
  · exact (spelling.block.within _).bind close
  · exact (spelling.operandAt _ _).bind close

/-- What is put down as a parameter is spelled as the source can spell it. -/
theorem arrowParameter : Gives (arrowParameter sub) fun _ => True := by
  refine (spelling.operandAt _ _).bind fun parameter hx => ?_
  intro parser after _ hp hm
  cases hm
  exact ⟨trivial, hp.faithful, hp.operands, List.forall_mem_cons.mpr ⟨hx, hp.params⟩⟩

omit spelling in
theorem takeParams (mark : Nat) :
    Gives (takeParams mark) fun params => ∀ node ∈ params, node.Spelled := by
  intro parser after params hp hm
  rw [run_takeParams] at hm
  cases hm
  refine ⟨fun node hin => ?_, hp.faithful, hp.operands, fun node hin => ?_⟩
  · exact hp.params node (List.mem_of_mem_take (List.mem_reverse.mp hin))
  · exact hp.params node (List.mem_of_mem_drop hin)

theorem arrowFunction : Gives (arrowFunction sub) Node.Spelled := by
  refine gives_elementary.nextToken.andThen fun _ => gives_get fun parser => ?_
  refine (spelling.arrowParameter.closedList _).bind fun _ _ => ?_
  refine (gives_elementary.require _).andThen fun _ => ?_
  exact (takeParams _).bind fun params hparams => spelling.arrowBody hparams

theorem parenthesized : Gives (parenthesized sub) Node.Spelled := by
  refine gives_elementary.nextToken.andThen fun _ => ?_
  refine (gives_elementary.pair.isAt _).andThen fun _ => gives_ite (gives_reject _ _) ?_
  refine (((spelling .operand).within _).closedList _).bind fun items hitems => ?_
  split
  · exact gives_pure (List.forall_mem_singleton.mp hitems)
  · exact gives_pure (spelled_of rfl (by simpa [children] using hitems))

theorem openingParen {opensArrow : ParserM Bool} (harrow : Gives opensArrow fun _ => True) :
    Gives (openingParen opensArrow sub) Node.Spelled :=
  harrow.andThen fun _ => gives_ite spelling.arrowFunction spelling.parenthesized

theorem argumentList (owner : NodeKind) :
    Gives (argumentList sub owner) fun nodes => ∀ node ∈ nodes, node.Spelled :=
  (gives_elementary.require _).andThen fun _ => (spelling.operandAt _ _).closedList _

theorem construction : Gives (construction sub) Node.Spelled := by
  refine gives_elementary.nextToken.andThen fun _ => ?_
  refine (spelling.operandAt _ _).bind fun callee hc => ?_
  refine (gives_elementary.pair.isAt _).andThen fun _ => gives_ite ?_ ?_
  · refine (spelling.argumentList _).bind fun arguments ha => gives_pure (spelled_of rfl ?_)
    simpa [children, hc] using ha
  · exact gives_pure (spelled_of rfl (by simp [children, hc]))

theorem yieldOperand : Gives (yieldOperand sub) Node.Spelled := by
  refine gives_elementary.token.andThen fun word => ?_
  refine (gives_nextTokenIn .newlines).andThen fun following => gives_ite ?_ ?_
  · exact gives_pure (spelled_of rfl (by simp [children]))
  · refine (spelling.operandAt _ _).bind fun argument ha => gives_pure (spelled_of rfl ?_)
    simp [children, ha]

/-- The rule takes no operator that cannot stand before its operand. -/
theorem leadingOperator : Gives (leadingOperator sub) Node.Spelled := by
  refine gives_elementary.token.andThen fun word => ?_
  split
  · rename_i hl
    refine gives_elementary.nextToken.andThen fun _ => ?_
    split
    · rename_i hu
      refine (spelling.operandAt _ _).bind fun argument ha => gives_pure (spelled_of hu ?_)
      simp [children, ha]
    · rename_i hu
      refine (spelling.operandAt _ _).bind fun argument ha => gives_pure (spelled_of ?_ ?_)
      · simp [isSpelled, hl, hu]
      · simp [children, ha]
  · exact gives_reject _ _

end Expressions

section Extensions

variable {operand : Node} (ho : operand.Spelled)
include ho

theorem computedAccess : Gives (computedAccess sub operand) Node.Spelled := by
  refine gives_elementary.nextToken.andThen fun _ => ?_
  refine (spelling.operandAt _ _).bind fun key hk => ?_
  refine (gives_elementary.require _).andThen fun _ => gives_pure (spelled_of rfl ?_)
  simp [children, ho, hk]

theorem call : Gives (call sub operand) Node.Spelled := by
  refine (spelling.argumentList _).bind fun arguments ha => gives_pure (spelled_of rfl ?_)
  simpa [children, ho] using ha

omit spelling ho in
theorem binaryOperator? : Gives binaryOperator? fun _ => True := by
  refine gives_elementary.current.andThen fun word => ?_
  cases word <;> exact gives_pure trivial

omit ho in
/-- Both loops over operators keep the spelling. -/
theorem operators (rounds : Nat) :
    (∀ {left : Node} least, left.Spelled →
      Gives (takeOperators sub left least rounds) Node.Spelled) ∧
    ∀ {right : Node} strength, right.Spelled →
      Gives (absorb sub right strength rounds) Node.Spelled := by
  induction rounds with
  | zero => exact ⟨fun _ _ => gives_throw _ _, fun _ _ => gives_throw _ _⟩
  | succ rounds ih =>
    obtain ⟨ihTake, ihAbsorb⟩ := ih
    constructor
    · intro left least hl
      rw [takeOperators]
      refine binaryOperator?.andThen fun found => ?_
      split
      · refine gives_ite (gives_pure hl) (gives_elementary.nextToken.andThen fun _ => ?_)
        refine (spelling.operandAt _ _).bind fun right hr => ?_
        refine (ihAbsorb _ hr).bind fun right hr => ihTake least (spelled_of rfl ?_)
        simp [children, hl, hr]
      · exact gives_pure hl
    · intro right strength hr
      have hboth (least : Nat) : Gives (do
          let right ← takeOperators sub right least rounds
          absorb sub right strength rounds) Node.Spelled :=
        (ihTake least hr).bind fun right hr => ihAbsorb strength hr
      rw [absorb]
      refine binaryOperator?.andThen fun found => ?_
      split
      · exact gives_ite (hboth _) (gives_ite (hboth _) (gives_pure hr))
      · exact gives_pure hr

theorem followingOperator : Gives (followingOperator sub operand) Node.Spelled := by
  refine gives_elementary.token.andThen fun word => ?_
  split
  · rename_i hu
    refine gives_elementary.nextToken.andThen fun _ => gives_pure (spelled_of hu ?_)
    simp [children, ho]
  · exact gives_elementary.budget.andThen fun rounds => (spelling.operators rounds).1 _ ho

/-- The operator of an assignment is one of the table, since its token is. -/
theorem assignment {parser after : Parser} {word : Token} {node : Node} (hp : parser.Spelled)
    (hw : parser.lexer.current = some word) (hk : word.kind = .assignmentOperator)
    (hm : assignment sub operand parser = .ok node after) : node.Spelled ∧ after.Spelled := by
  obtain ⟨found, between, htoken, hrest⟩ := ok_of_bind_ok hm
  obtain ⟨⟨place, hat⟩, hbetween⟩ := gives_token _ _ _ hp htoken
  obtain ⟨-, hfound⟩ := of_token_ok htoken
  obtain rfl : word = found := Option.some.inj (hw.symm.trans hfound)
  have hright : Gives (do
      nextToken
      let right ← ParserM.operandAt sub .assignmentExpression .right
      pure (Node.assignment word.value operand right)) Node.Spelled := by
    refine gives_elementary.nextToken.andThen fun _ => ?_
    refine (spelling.operandAt _ _).bind fun right hr => gives_pure (spelled_of ?_ ?_)
    · exact List.contains_iff_mem.mpr (hat.mem_assignments hk)
    · simp [children, ho, hr]
  exact hright _ _ _ hbetween hrest

theorem conditional : Gives (conditional sub operand) Node.Spelled := by
  refine gives_elementary.nextToken.andThen fun _ => ?_
  refine (spelling.operandAt _ _).bind fun consequent hc => ?_
  refine (gives_elementary.require _).andThen fun _ => ?_
  refine (spelling.operandAt _ _).bind fun alternate ha => gives_pure (spelled_of rfl ?_)
  simp [children, ho, hc, ha]

omit ho in
theorem sequenceRest (rounds : Nat) :
    Gives (sequenceRest sub rounds) fun nodes => ∀ node ∈ nodes, node.Spelled := by
  induction rounds with
  | zero => exact gives_throw _ _
  | succ rounds ih =>
    refine (gives_elementary.pair.accept _).andThen fun _ => gives_ite ?_ (gives_pure nofun)
    refine (spelling.operandAt _ _).bind fun expression he => ih.bind fun others hothers => ?_
    exact gives_pure (List.forall_mem_cons.mpr ⟨he, hothers⟩)

theorem sequence : Gives (sequence sub operand) Node.Spelled := by
  refine gives_elementary.budget.andThen fun rounds => ?_
  refine (spelling.sequenceRest rounds).bind fun others hothers => gives_pure (spelled_of rfl ?_)
  simpa [children, ho] using hothers

theorem arrowFromOperand : Gives (arrowFromOperand sub operand) Node.Spelled :=
  gives_elementary.nextToken.andThen fun _ =>
    spelling.arrowBody (List.forall_mem_singleton.mpr ho)

theorem labeled : Gives (labeled sub operand) Node.Spelled := by
  refine gives_elementary.nextToken.andThen fun _ => ?_
  refine (spelling.statementAt _ _).bind fun body hb => gives_pure (spelled_of rfl ?_)
  simp [children, ho, hb]

end Extensions

section Members

theorem functionRest (role : FunctionRole) (isAsync isGenerator : Bool) {name : Option Node}
    (hn : ∀ tree ∈ name, tree.Spelled) :
    Gives (functionRest sub role isAsync isGenerator name) Node.Spelled := by
  refine (gives_elementary.require _).andThen fun _ => ?_
  refine ((spelling.operandAt _ _).closedList _).bind fun params hp => ?_
  refine (spelling.block.within _).bind fun body hb => gives_pure (spelled_of rfl ?_)
  simpa [children, hb] using ⟨hn, hp⟩

theorem function : Gives (function sub) Node.Spelled := by
  refine gives_elementary.token.andThen fun word => gives_get fun parser => ?_
  refine (gives_nextTokenIn .names).andThen fun following => ?_
  exact (gives_functionName following).bind fun name hn => spelling.functionRest _ _ _ hn

theorem memberKey (owner : NodeKind) :
    Gives (memberKey sub owner) fun key => key.1.Spelled := by
  refine gives_elementary.token.andThen fun word => ?_
  split
  · refine gives_elementary.nextToken.andThen fun _ => ?_
    refine (spelling.operandAt _ _).bind fun key hk => ?_
    exact (gives_elementary.require _).andThen fun _ => gives_pure hk
  · exact gives_literal.bind fun key hk => gives_pure hk
  · exact gives_literal.bind fun key hk => gives_pure hk
  · exact gives_ite (gives_name.bind fun key hk => gives_pure hk) (gives_reject _ _)

omit spelling in
theorem acceptModifier (kind : TokenKind) : Gives (acceptModifier kind) fun _ => True :=
  (gives_elementary.pair.isAt _).andThen fun _ =>
    gives_ite (gives_tryModifier _) (gives_pure trivial)

omit spelling in
theorem acceptAsync : Gives acceptAsync fun _ => True :=
  (gives_elementary.pair.isAtText _ _).andThen fun _ =>
    gives_ite (gives_tryModifier _) (gives_pure trivial)

omit spelling in
theorem methodKind : Gives methodKind fun _ => True :=
  (acceptModifier _).andThen fun _ => gives_ite (gives_pure trivial) <|
    (acceptModifier _).andThen fun _ => gives_ite (gives_pure trivial) (gives_pure trivial)

omit spelling in
theorem propertyKind : Gives propertyKind fun _ => True :=
  (acceptModifier _).andThen fun _ => gives_ite (gives_pure trivial) <|
    (acceptModifier _).andThen fun _ => gives_ite (gives_pure trivial) (gives_pure trivial)

theorem classMember : Gives (classMember sub) Node.Spelled := by
  refine (acceptModifier _).andThen fun isStatic => acceptAsync.andThen fun isAsync => ?_
  refine (gives_elementary.pair.acceptText _ _).andThen fun isGenerator => ?_
  refine methodKind.andThen fun kind => (spelling.memberKey _).bind fun key hk => ?_
  refine (gives_elementary.pair.isAt _).andThen fun _ => gives_ite ?_ ?_
  · refine (spelling.functionRest _ _ _ (by nofun)).bind fun value hv => ?_
    exact gives_pure (spelled_of rfl (by simp [children, hk, hv]))
  · have ending (value : Option Node) (hv : ∀ tree ∈ value, tree.Spelled) : Gives (do
        let _ ← accept .semicolon
        pure (Node.propertyDefinition isStatic key.1 key.2 value)) Node.Spelled := by
      refine (gives_elementary.pair.accept _).andThen fun _ => gives_pure (spelled_of rfl ?_)
      simpa [children, hk] using hv
    refine (gives_elementary.pair.acceptText _ _).andThen fun _ => gives_ite ?_ ?_
    · refine (spelling.operandAt _ _).bind fun value hv => ?_
      exact (gives_pure (by simp [hv])).bind ending
    · exact (gives_pure nofun).bind ending

theorem classMembers (rounds : Nat) :
    Gives (classMembers sub rounds) fun nodes => ∀ node ∈ nodes, node.Spelled := by
  induction rounds with
  | zero => exact gives_throw _ _
  | succ rounds ih =>
    refine (gives_elementary.pair.isAt _).andThen fun _ => gives_ite (gives_pure nofun) ?_
    refine (gives_elementary.pair.accept _).andThen fun _ => gives_ite ih ?_
    refine (spelling.classMember.within _).bind fun first hf => ih.bind fun others hothers => ?_
    exact gives_pure (List.forall_mem_cons.mpr ⟨hf, hothers⟩)

theorem classDefinition : Gives (classDefinition sub) Node.Spelled := by
  refine gives_elementary.nextToken.andThen fun _ => gives_className.bind fun name hn => ?_
  have body (superClass : Option Node) (hs : ∀ tree ∈ superClass, tree.Spelled) : Gives (do
      require .openBrace
      let members ← ParserM.classMembers sub (← budget)
      require .closeBrace
      pure (Node.classDeclaration name superClass (.classBody members))) Node.Spelled := by
    refine (gives_elementary.require _).andThen fun _ => ?_
    refine gives_elementary.budget.andThen fun rounds => ?_
    refine (spelling.classMembers rounds).bind fun members hmembers => ?_
    have hbody : (Node.classBody members).Spelled :=
      spelled_of rfl (by simpa [children] using hmembers)
    refine (gives_elementary.require _).andThen fun _ => gives_pure (spelled_of rfl ?_)
    simpa [children, hbody] using ⟨hn, hs⟩
  refine (gives_elementary.pair.accept _).andThen fun _ => gives_ite ?_ ?_
  · refine (spelling.operandAt _ _).bind fun superClass hs => ?_
    exact (gives_pure (by simp [hs])).bind body
  · exact (gives_pure (by simp)).bind body

theorem shorthandValue {key : Node} (hk : key.Spelled) :
    Gives (shorthandValue sub key) Node.Spelled := by
  refine (gives_elementary.pair.acceptText _ _).andThen fun _ => gives_ite ?_ (gives_pure hk)
  have hequals : Operator.assignments.contains "=" = true := by
    rw [Operator.assignments_eq]
    decide
  refine (spelling.operandAt _ _).bind fun value hv => gives_pure (spelled_of hequals ?_)
  simp [children, hk, hv]

theorem property (owner : NodeKind) : Gives (property sub owner) Node.Spelled := by
  refine acceptAsync.andThen fun isAsync => ?_
  refine (gives_elementary.pair.acceptText _ _).andThen fun isGenerator => ?_
  refine propertyKind.andThen fun kind => (spelling.memberKey _).bind fun key hk => ?_
  have close (kind : PropertyKind) (computed shorthand method : Bool) (value : Node)
      (hv : value.Spelled) :
      Gives (pure (Node.property key.1 value kind computed shorthand method)) Node.Spelled :=
    gives_pure (spelled_of rfl (by simp [children, hk, hv]))
  refine (gives_elementary.pair.isAt _).andThen fun _ => gives_ite ?_ ?_
  · exact (spelling.functionRest _ _ _ (by simp)).bind (close _ _ _ _)
  · refine (gives_elementary.pair.accept _).andThen fun _ => gives_ite ?_ (gives_ite ?_ ?_)
    · exact (spelling.operandAt _ _).bind (close _ _ _ _)
    · exact (spelling.shorthandValue hk).bind (close _ _ _ _)
    · exact gives_reject _ _

theorem objectMember (owner : NodeKind) : Gives (objectMember sub owner) Node.Spelled :=
  (gives_elementary.pair.isAt _).andThen fun _ => gives_ite spelling.spread (spelling.property _)

theorem object : Gives (object sub) Node.Spelled := by
  refine gives_get fun parser => gives_elementary.nextToken.andThen fun _ => ?_
  refine (((spelling.objectMember _).within _).closedList _).bind fun properties hp => ?_
  exact gives_pure (spelled_of rfl (by simpa [children] using hp))

end Members

section Statements

theorem expressionStatement : Gives (expressionStatement sub) Node.Spelled := by
  refine (spelling.operandAt _ _).bind fun expression he => gives_ite (gives_pure he) ?_
  refine (gives_elementary.pair.accept _).andThen fun _ => gives_pure (spelled_of rfl ?_)
  simp [children, he]

theorem declarator : Gives (declarator sub) Node.Spelled := by
  refine (spelling.operandAt _ _).bind fun target ht => ?_
  refine (gives_elementary.pair.acceptText _ _).andThen fun _ => gives_ite ?_ ?_
  · refine (spelling.operandAt _ _).bind fun value hv => gives_pure (spelled_of rfl ?_)
    simp [children, ht, hv]
  · exact gives_pure (spelled_of rfl (by simp [children, ht]))

theorem declarators (rounds : Nat) :
    Gives (declarators sub rounds) fun nodes => ∀ node ∈ nodes, node.Spelled := by
  induction rounds with
  | zero => exact gives_throw _ _
  | succ rounds ih =>
    refine spelling.declarator.bind fun first hf => ?_
    refine (gives_elementary.pair.isAt _).andThen fun _ => gives_ite ?_ ?_
    · refine (gives_nextTokenIn .names).andThen fun _ => ih.bind fun others hothers => ?_
      exact gives_pure (List.forall_mem_cons.mpr ⟨hf, hothers⟩)
    · exact gives_pure (List.forall_mem_singleton.mpr hf)

theorem variableDeclaration : Gives (variableDeclaration sub) Node.Spelled := by
  refine gives_elementary.token.andThen fun word => ?_
  split
  · refine (gives_nextTokenIn .names).andThen fun _ => ?_
    refine gives_elementary.budget.andThen fun rounds => ?_
    refine (spelling.declarators rounds).bind fun declarations hd => gives_pure ?_
    exact spelled_of rfl (by simpa [children] using hd)
  · exact gives_reject _ _

omit spelling in
theorem enterParens : Gives enterParens fun _ => True := by
  refine (gives_nextTokenIn _).andThen fun word => ?_
  cases word with
  | some word => exact gives_elementary.nextToken
  | none => exact (gives_reread .default).andThen fun _ => gives_reject _ _

theorem condition (kind : NodeKind) (slot : Slot) : Gives (condition sub kind slot) Node.Spelled :=
  (spelling.operandAt _ _).bind fun _ ht =>
    (gives_elementary.require _).andThen fun _ => gives_pure ht

theorem ifStatement : Gives (ifStatement sub) Node.Spelled := by
  refine enterParens.andThen fun _ => (spelling.condition _ _).bind fun test ht => ?_
  refine (spelling.statementAt _ _).bind fun consequent hc => ?_
  refine (gives_elementary.pair.accept _).andThen fun _ => gives_ite ?_ ?_
  · refine (spelling.statementAt _ _).bind fun alternate ha => gives_pure (spelled_of rfl ?_)
    simp [children, ht, hc, ha]
  · exact gives_pure (spelled_of rfl (by simp [children, ht, hc]))

theorem whileStatement : Gives (whileStatement sub) Node.Spelled := by
  refine enterParens.andThen fun _ => (spelling.condition _ _).bind fun test ht => ?_
  refine (spelling.statementAt _ _).bind fun body hb => gives_pure (spelled_of rfl ?_)
  simp [children, ht, hb]

theorem doWhile : Gives (doWhile sub) Node.Spelled := by
  refine gives_elementary.nextToken.andThen fun _ => ?_
  refine (spelling.statementAt _ _).bind fun body hb => ?_
  refine (gives_elementary.pair.isAt _).andThen fun _ => gives_ite ?_ (gives_reject _ _)
  refine enterParens.andThen fun _ => (spelling.condition _ _).bind fun test ht => ?_
  refine (gives_elementary.pair.accept _).andThen fun _ => gives_pure (spelled_of rfl ?_)
  simp [children, hb, ht]

theorem forStart : Gives (forStart sub) fun start => ∀ tree ∈ start, tree.Spelled := by
  refine gives_elementary.token.andThen fun word => ?_
  split
  · exact gives_pure nofun
  · refine (spelling.variableDeclaration.within _).bind fun declaration hd => ?_
    exact gives_pure (by simp [hd])
  · exact (spelling.operandAt _ _).bind fun expression he => gives_pure (by simp [he])

theorem forClause (close : TokenKind) (slot : Slot) :
    Gives (forClause sub close slot) fun clause => ∀ tree ∈ clause, tree.Spelled := by
  refine (gives_elementary.pair.isAt _).andThen fun _ => gives_ite (gives_pure nofun) ?_
  exact (spelling.operandAt _ _).bind fun clause hc => gives_pure (by simp [hc])

theorem forRest {start : Option Node} (hs : ∀ tree ∈ start, tree.Spelled) :
    Gives (forRest sub start) Node.Spelled := by
  refine (spelling.forClause _ _).bind fun test ht => ?_
  refine (gives_elementary.require _).andThen fun _ => ?_
  refine (spelling.forClause _ _).bind fun step hstep => ?_
  refine (gives_elementary.require _).andThen fun _ => ?_
  refine (spelling.statementAt _ _).bind fun body hb => gives_pure (spelled_of rfl ?_)
  simpa [children, hb] using ⟨hs, ht, hstep⟩

theorem forEachRest {left : Node} (hl : left.Spelled) (awaits : Bool) :
    Gives (forEachRest sub left awaits) Node.Spelled := by
  refine gives_elementary.token.andThen fun word => ?_
  split
  · refine gives_elementary.nextToken.andThen fun _ => ?_
    refine (spelling.condition _ _).bind fun right hr => ?_
    refine (spelling.statementAt _ _).bind fun body hb => gives_pure (spelled_of rfl ?_)
    simp [children, hl, hr, hb]
  · exact gives_reject _ _

theorem forStatement : Gives (forStatement sub) Node.Spelled := by
  refine gives_elementary.token.andThen fun word => gives_elementary.nextToken.andThen fun _ => ?_
  refine spelling.forStart.bind fun start hs => ?_
  refine (gives_elementary.pair.accept _).andThen fun _ => gives_ite (spelling.forRest hs) ?_
  cases start with
  | none => exact gives_reject _ _
  | some left => exact spelling.forEachRest (hs left rfl) _

theorem caseTest : Gives (caseTest sub) fun test => ∀ tree ∈ test, tree.Spelled := by
  refine gives_elementary.token.andThen fun word => ?_
  split
  · refine gives_elementary.nextToken.andThen fun _ => ?_
    exact (spelling.operandAt _ _).bind fun test ht => gives_pure (by simp [ht])
  · exact gives_elementary.nextToken.andThen fun _ => gives_pure nofun
  · exact gives_reject _ _

theorem switchCase : Gives (switchCase sub) Node.Spelled := by
  refine spelling.caseTest.bind fun test ht => (gives_elementary.require _).andThen fun _ => ?_
  refine gives_elementary.budget.andThen fun rounds => ?_
  refine ((spelling.statementAt _ _).manyWhile _ rounds).bind fun consequent hc => ?_
  exact gives_pure (spelled_of rfl (by simpa [children] using ⟨ht, hc⟩))

theorem switchStatement : Gives (switchStatement sub) Node.Spelled := by
  refine enterParens.andThen fun _ => (spelling.condition _ _).bind fun discriminant hd => ?_
  refine (gives_elementary.require _).andThen fun _ => ?_
  refine gives_elementary.budget.andThen fun rounds => ?_
  refine (spelling.switchCase.manyWhile _ rounds).bind fun cases hcases => ?_
  refine (gives_elementary.require _).andThen fun _ => gives_pure (spelled_of rfl ?_)
  simpa [children, hd] using hcases

theorem returnStatement : Gives (returnStatement sub) Node.Spelled := by
  have bare : (Node.returnStatement none).Spelled := spelled_of rfl (by simp [children])
  refine (gives_nextTokenIn .newlines).andThen fun word => ?_
  cases word with
  | none => exact gives_pure bare
  | some word =>
    refine gives_ite (gives_elementary.nextToken.andThen fun _ => gives_pure bare)
      (gives_ite (gives_pure bare) ?_)
    refine (spelling.operandAt _ _).bind fun argument ha => ?_
    refine (gives_elementary.pair.accept _).andThen fun _ => gives_pure (spelled_of rfl ?_)
    simp [children, ha]

theorem exportStatement : Gives (exportStatement sub) Node.Spelled := by
  refine gives_elementary.nextToken.andThen fun _ => ?_
  refine (gives_elementary.pair.isAt _).andThen fun _ => gives_ite gives_exportNamed ?_
  refine (spelling.statementAt _ _).bind fun declaration hd => gives_pure (spelled_of rfl ?_)
  simp [children, hd]

theorem exportDefault : Gives (exportDefault sub) Node.Spelled := by
  have close {declaration : Node} (hd : declaration.Spelled) :
      (Node.exportStatement true declaration).Spelled := spelled_of rfl (by simp [children, hd])
  refine gives_elementary.nextToken.andThen fun _ => gives_elementary.token.andThen fun word => ?_
  split
  · exact (spelling.statementAt _ _).bind fun declaration hd => gives_pure (close hd)
  · exact (spelling.statementAt _ _).bind fun declaration hd => gives_pure (close hd)
  · refine (spelling.operandAt _ _).bind fun expression he => ?_
    exact (gives_elementary.pair.accept _).andThen fun _ => gives_pure (close he)

theorem statement : Gives (statement sub) Node.Spelled := by
  refine gives_elementary.token.andThen fun word => ?_
  split
  · exact spelling.block
  · exact gives_elementary.nextToken.andThen fun _ => gives_pure (spelled_of rfl nofun)
  · refine spelling.variableDeclaration.bind fun declaration hd => ?_
    exact (gives_elementary.pair.accept _).andThen fun _ => gives_pure hd
  · exact spelling.function
  · exact spelling.classDefinition
  · exact spelling.ifStatement
  · exact spelling.forStatement
  · exact spelling.whileStatement
  · exact spelling.doWhile
  · exact spelling.switchStatement
  · exact spelling.returnStatement
  · exact gives_jump
  · exact gives_jump
  · exact gives_importDeclaration
  · exact spelling.exportStatement
  · exact spelling.exportDefault
  · exact spelling.expressionStatement

end Statements

section Operands

theorem extension {operand : Node} (ho : operand.Spelled) {parser after : Parser} {word : Token}
    {node : Node} (hp : parser.Spelled) (hw : parser.lexer.current = some word)
    (hm : extension sub word.kind operand parser = .ok node after) :
    node.Spelled ∧ after.Spelled := by
  generalize hk : word.kind = kind at hm
  unfold ParserM.extension at hm
  split at hm
  · exact gives_memberAccess ho _ _ _ hp hm
  · exact spelling.computedAccess ho _ _ _ hp hm
  · exact spelling.call ho _ _ _ hp hm
  · exact spelling.followingOperator ho _ _ _ hp hm
  · exact spelling.assignment ho hp hw hk hm
  · exact spelling.conditional ho _ _ _ hp hm
  · exact spelling.sequence ho _ _ _ hp hm
  · exact spelling.arrowFromOperand ho _ _ _ hp hm
  · exact spelling.labeled ho _ _ _ hp hm
  · cases hm

theorem opening {opensArrow : ParserM Bool} (harrow : Gives opensArrow fun _ => True)
    (word : Token) : Gives (opening opensArrow sub word) Node.Spelled := by
  unfold ParserM.opening
  split
  iterate 5 exact gives_identifier
  · exact gives_reservedWord
  iterate 4 exact gives_literal
  · exact spelling.template
  · exact gives_elementary.nextToken.andThen fun _ => gives_pure (spelled_of rfl nofun)
  · exact spelling.function
  · exact spelling.classDefinition
  · exact spelling.construction
  · exact spelling.yieldOperand
  · exact spelling.spread
  · exact spelling.openingParen harrow
  · exact spelling.array
  · exact gives_get fun parser => gives_ite spelling.block spelling.object
  · exact gives_ite gives_regexOperand spelling.leadingOperator
  · exact gives_ite gives_regexOperand (gives_reject _ _)
  · exact gives_reject _ _

omit spelling in
theorem takeOperand : Gives takeOperand Node.Spelled := by
  intro parser after operand hp hm
  cases ho : parser.operands with
  | nil => simp [ParserM.takeOperand, run_bind, ho] at hm
  | cons first operands =>
    rw [run_takeOperand ho] at hm
    cases hm
    have hall := ho ▸ hp.operands
    exact ⟨hall operand List.mem_cons_self, hp.faithful,
      fun node hin => hall node (List.mem_cons_of_mem _ hin), hp.params⟩

theorem node {opensArrow : ParserM Bool} (harrow : Gives opensArrow fun _ => True) :
    Gives (node opensArrow sub) Node.Spelled := by
  intro parser after node hp hm
  obtain ⟨word, between, htoken, hrest⟩ := ok_of_bind_ok hm
  obtain ⟨rfl, hw⟩ := of_token_ok htoken
  rw [run_bind, run_get] at hrest
  dsimp only at hrest
  split at hrest
  · obtain ⟨operand, taken, htake, hext⟩ := ok_of_bind_ok hrest
    obtain ⟨ho, htaken⟩ := takeOperand _ _ _ hp htake
    -- taking up an operand leaves the stream alone
    have hlexer : taken.lexer = between.lexer := by
      cases hops : between.operands with
      | nil => simp [ParserM.takeOperand, run_bind, hops] at htake
      | cons first operands =>
        rw [run_takeOperand hops] at htake
        cases htake
        rfl
    exact spelling.extension ho htaken (hlexer ▸ hw) hext
  · exact spelling.opening harrow word _ _ _ hp hrest

theorem extend {opensArrow : ParserM Bool} (harrow : Gives opensArrow fun _ => True)
    {operand : Node} (ho : operand.Spelled) (rounds : Nat) :
    Gives (extend opensArrow sub operand rounds) Node.Spelled := by
  induction rounds generalizing operand with
  | zero => exact gives_throw _ _
  | succ rounds ih =>
    refine gives_get fun parser => ?_
    split
    · refine gives_ite ?_ (gives_pure ho)
      have hput : Gives (putOperand operand) fun _ => True := by
        intro parser after _ hp hm
        cases hm
        exact ⟨trivial, hp.faithful, List.forall_mem_cons.mpr ⟨ho, hp.operands⟩, hp.params⟩
      exact hput.andThen fun _ => ((spelling.node harrow).within _).bind fun longer hl => ih hl
    · exact gives_pure ho

end Operands

end Spelling

theorem gives_arrowAhead : Gives arrowAhead fun _ => True :=
  gives_step stillFaithful_arrowAhead confined_arrowAhead.keeping

/-- The goals of the grammar give such trees, by induction on the room for constructs inside each
other. -/
theorem spelling_goal (room : Nat) : Spelling (goal arrowAhead room) := by
  induction room with
  | zero => exact fun _ => gives_throw _ _
  | succ room ih =>
    intro goal
    cases goal with
    | statement => exact ih.statement
    | operand =>
      refine (ih.node gives_arrowAhead).bind fun first hf => ?_
      exact gives_elementary.budget.andThen fun rounds => ih.extend gives_arrowAhead hf rounds

theorem gives_settleOperands : Gives settleOperands fun _ => True := by
  intro parser after _ hp hm
  simp only [settleOperands, run_bind, run_get] at hm
  split at hm
  · cases hm
    exact ⟨trivial, hp⟩
  · split at hm
    · cases hm
    · cases hm
      exact ⟨trivial, hp.faithful, List.forall_mem_nil _, hp.params⟩

theorem gives_programBody (room rounds : Nat) :
    Gives (programBody (goal arrowAhead room) rounds) fun body => ∀ node ∈ body, node.Spelled := by
  induction rounds with
  | zero => exact gives_throw _ _
  | succ rounds ih =>
    refine gives_elementary.current.andThen fun _ => gives_ite (gives_pure nofun) ?_
    refine ((spelling_goal room).statementAt _ _).bind fun first hf => ?_
    refine gives_settleOperands.andThen fun _ => ih.bind fun others hothers => ?_
    exact gives_pure (List.forall_mem_cons.mpr ⟨hf, hothers⟩)

theorem gives_program : Gives (program arrowAhead) Node.Spelled := by
  refine gives_elementary.nextToken.andThen fun _ => gives_get fun parser => ?_
  refine (gives_programBody _ _).bind fun body hb => gives_get fun after => ?_
  exact gives_ite (gives_pure (spelled_of rfl (by simpa [children] using hb))) (gives_reject _ _)

end ParserM

/-- The trees of programs are spelled as the source can spell them. -/
theorem Node.spelled_of_ofSourceWith {source : String} {options : ParserOptions} {tree : Node}
    (h : Node.ofSourceWith options source = .ok tree) : tree.Spelled := by
  unfold Node.ofSourceWith Parser.run at h
  have hstart : (Parser.ofText source options).Spelled :=
    ⟨Lexer.ofText_faithful _, nofun, nofun⟩
  cases hp : ParserM.program ParserM.arrowAhead (Parser.ofText source options) with
  | error failure after =>
    rw [hp] at h
    cases h
  | ok node after =>
    rw [hp] at h
    cases h
    exact (ParserM.gives_program _ _ _ hstart hp).1

end ScriptTree
