import ScriptTree.Proofs.RuleShape

/-!
Every program is a well formed tree.

The rules for members and statements build sound nodes, and so do operands that are extended for as
long as a token continues them; a label makes a statement of an operand only where a statement can
stand. The recursion between goals then carries this to whole programs.
-/

namespace ScriptTree

namespace ParserM

open Node

/-- What a token that continues an operand says about the operand and about the construct. -/
structure AdmitsCases (context : Context) (operand : Node) (word : Token) : Prop where
  call : word.kind = .openParen → operand.isCallable = true
  update : word.kind = .operator → Operator.isUpdate word.value = true → operand.isUpdatable = true
  assignment : word.kind = .assignmentOperator → operand.isAssignable = true
  label : word.kind = .colon →
    operand.isIdentifier = true ∧ context.head? = some .wholeStatement

theorem admits_cases {context : Context} {operand : Node} {word : Token}
    (h : context.admits operand word = true) : AdmitsCases context operand word := by
  unfold Context.admits at h
  split at h
  · cases h
  · -- behind `new` only accesses continue an operand
    constructor <;> intro hk <;> simp [hk] at h
  · rename_i frame context _
    constructor
    · intro hk
      simp only [hk, Frame.admitsCall, Bool.and_eq_true] at h
      exact h.1.1
    · intro hk hu
      simp only [hk, hu, if_true, Bool.and_eq_true] at h
      exact h.1
    · intro hk
      simp only [hk, Frame.admitsAssignment, Bool.and_eq_true] at h
      exact h.1.1.1.1
    · intro hk
      simp only [hk, Bool.and_eq_true] at h
      obtain ⟨hi, hframe⟩ := h
      refine ⟨hi, ?_⟩
      split at hframe
      · rfl
      · cases hframe

theorem extend_of_isLabeled {opensArrow : ParserM Bool} {sub : Goal → ParserM Node}
    {operand node : Node} {rounds : Nat} {parser after : Parser} (h : operand.isLabeled = true)
    (hm : extend opensArrow sub operand rounds parser = .ok node after) : node = operand := by
  have hcomplete : parser.context.isComplete operand = true := by
    cases operand with
    | labeled label body => rfl
    | _ => cases h
  cases rounds with
  | zero => cases hm
  | succ rounds =>
    rw [extend, run_bind, run_get] at hm
    dsimp only at hm
    cases hw : parser.lexer.current with
    | none =>
      rw [hw] at hm
      cases hm
      rfl
    | some word =>
      rw [hw, hcomplete] at hm
      cases hm
      rfl

theorem of_token_ok {word : Token} {parser after : Parser}
    (h : token parser = .ok word after) : after = parser ∧ parser.lexer.current = some word := by
  cases hc : parser.lexer.current with
  | none => simp [token, run_bind, hc] at h
  | some found =>
    rw [run_token hc] at h
    cases h
    exact ⟨rfl, rfl⟩

namespace Shaping

variable {sub : Goal → ParserM Node} (shaping : Shaping sub)
include shaping

section Members

theorem functionRest (role : FunctionRole) (isAsync isGenerator : Bool) {name : Option Node}
    (hn : AnySound isIdentifier name) : Yields (functionRest sub role isAsync isGenerator name)
      fun node => node.Sound ∧ ∃ params body,
        node = .function role isAsync isGenerator name params body := by
  have hclear : (Frame.filling (functionKind role) .params).isClear = true := by
    cases role <;> rfl
  refine yields_bind fun _ => (shaping.operands hclear _).bind fun params hp => ?_
  refine (shaping.block.within _).bind fun body hb => yields_pure ⟨sound_of ?_ ?_, _, _, rfl⟩
  · simp [isWellFormed, hn.1, hp.1, hb.1]
  · simpa [children, hb.2] using ⟨hn.2, hp.2⟩

/-- A function is a declaration where the construct asks for one, and otherwise an expression. -/
theorem function {parser after : Parser} {node : Node}
    (hm : function sub parser = .ok node after) : node.Sound ∧
      if parser.context.expectsDeclaration then node.isStatement = true
      else node.isExpression = true := by
  obtain ⟨word, between, htoken, hrest⟩ := ok_of_bind_ok hm
  obtain ⟨rfl, -⟩ := of_token_ok htoken
  dsimp only at hrest
  rw [run_bind, run_get] at hrest
  obtain ⟨following, p₁, -, hrest⟩ := ok_of_bind_ok hrest
  obtain ⟨name, p₂, hname, hrest⟩ := ok_of_bind_ok hrest
  have hn := yields_functionName following _ _ _ hname
  obtain ⟨hs, params, body, rfl⟩ := shaping.functionRest _ _ _ hn _ _ _ hrest
  refine ⟨hs, ?_⟩
  cases hd : between.context.expectsDeclaration <;> rfl

theorem memberKey {owner : NodeKind} (h : (Frame.filling owner .key).isClear = true) :
    Yields (memberKey sub owner) fun key => key.1.SoundAs isExpression := by
  refine yields_bind fun word => ?_
  split
  · refine yields_bind fun _ => (shaping.operandAt h).bind fun key hk => ?_
    exact yields_bind fun _ => yields_pure hk
  · exact yields_literal.bind fun key hk => yields_pure hk
  · exact yields_literal.bind fun key hk => yields_pure hk
  · refine yields_ite ?_ (yields_reject _ _)
    exact yields_name.bind fun key hk => yields_pure hk.expression

theorem method (isAsync isGenerator : Bool) :
    Yields (ParserM.functionRest sub .expression isAsync isGenerator none) fun node =>
      node.Sound ∧ node.isExpression = true ∧ node.isNamelessFunction = true := by
  refine (shaping.functionRest .expression isAsync isGenerator (anySound_none _)).mono ?_
  rintro node ⟨hs, params, body, rfl⟩
  exact ⟨hs, rfl, rfl⟩

theorem classMember : Yields (classMember sub) (SoundAs isClassMember) := by
  refine yields_bind fun isStatic => yields_bind fun isAsync => yields_bind fun isGenerator => ?_
  refine yields_bind fun kind => (shaping.memberKey rfl).bind fun key hk => ?_
  refine yields_bind fun _ => yields_ite ?_ ?_
  · refine (shaping.method _ _).bind fun value hv => yields_pure ⟨rfl, sound_of ?_ ?_⟩
    · simp [isWellFormed, hk.1, hv.2.2]
    · simp [children, hk.2, hv.1]
  · have ending (value : Option Node) (hv : AnySound isExpression value) : Yields (do
        let _ ← accept .semicolon
        pure (Node.propertyDefinition isStatic key.1 key.2 value)) (SoundAs isClassMember) := by
      refine yields_bind fun _ => yields_pure ⟨rfl, sound_of ?_ ?_⟩
      · simp [isWellFormed, hk.1, hv.1]
      · simpa [children, hk.2] using hv.2
    refine yields_bind fun _ => yields_ite ?_ ?_
    · refine (shaping.operandAt rfl).bind fun value hv => ?_
      exact (yields_pure (AnySound.some hv)).bind ending
    · exact (yields_pure (anySound_none _)).bind ending

theorem classMembers (rounds : Nat) :
    Yields (classMembers sub rounds) (AllSound isClassMember) := by
  induction rounds with
  | zero => exact yields_throw _ _
  | succ rounds ih =>
    refine yields_bind fun _ => yields_ite (yields_pure (allSound_nil _)) ?_
    refine yields_bind fun _ => yields_ite ih ?_
    refine (shaping.classMember.within _).bind fun first hf => ih.bind fun others hothers => ?_
    refine yields_pure ⟨?_, List.forall_mem_cons.mpr ⟨hf.2, hothers.2⟩⟩
    simp [hf.1, hothers.1]

theorem classDefinition : Yields (classDefinition sub) fun node =>
    node.Sound ∧ node.isStatement = true ∧ node.isExpression = true := by
  refine yields_bind fun _ => yields_className.bind fun name hn => ?_
  have body (superClass : Option Node) (hs : AnySound isExpression superClass) : Yields (do
      require .openBrace
      let members ← ParserM.classMembers sub (← budget)
      require .closeBrace
      pure (Node.classDeclaration name superClass (.classBody members))) fun node =>
        node.Sound ∧ node.isStatement = true ∧ node.isExpression = true := by
    refine yields_bind fun _ => yields_bind fun rounds => ?_
    refine (shaping.classMembers rounds).bind fun members hmembers => yields_bind fun _ => ?_
    have hbody : (Node.classBody members).Sound :=
      sound_of hmembers.1 (by simpa [children] using hmembers.2)
    refine yields_pure ⟨sound_of ?_ ?_, rfl, rfl⟩
    · simp [isWellFormed, hn.1, hs.1, isClassBody]
    · simpa [children, hbody] using ⟨hn.2, hs.2⟩
  refine yields_bind fun _ => yields_ite ?_ ?_
  · refine (shaping.operandAt rfl).bind fun superClass hs => ?_
    exact (yields_pure (AnySound.some hs)).bind body
  · exact (yields_pure (anySound_none _)).bind body

theorem shorthandValue {key : Node} (hk : key.SoundAs isIdentifier) :
    Yields (shorthandValue sub key) (SoundAs isExpression) := by
  refine yields_bind fun _ => yields_ite ?_ (yields_pure hk.expression)
  refine (shaping.operandAt rfl).bind fun value hv => yields_pure ⟨rfl, sound_of ?_ ?_⟩
  · simp [isWellFormed, (isExpression_of_isIdentifier hk.1).2, hv.1]
  · simp [children, hk.2, hv.2]

theorem property (role : ObjectRole) :
    Yields (property sub (objectKind role)) (SoundAs isObjectMember) := by
  have hkey : (Frame.filling (objectKind role) .key).isClear = true := by cases role <;> rfl
  have hvalue : (Frame.filling (objectKind role) .value).isClear = true := by cases role <;> rfl
  refine yields_bind fun isAsync => yields_bind fun isGenerator => yields_bind fun kind => ?_
  refine (shaping.memberKey hkey).bind fun key hk => ?_
  have build {value : Node} (hv : value.SoundAs isExpression) (kind : PropertyKind)
      (computed shorthand method : Bool) :
      (Node.property key.1 value kind computed shorthand method).SoundAs isObjectMember := by
    refine ⟨rfl, sound_of ?_ ?_⟩
    · simp [isWellFormed, hk.1, hv.1]
    · simp [children, hk.2, hv.2]
  refine yields_bind fun _ => yields_ite ?_ (yields_bind fun _ => yields_ite ?_ ?_)
  · exact (shaping.method _ _).bind fun value hv => yields_pure (build ⟨hv.2.1, hv.1⟩ _ _ _ _)
  · exact (shaping.operandAt hvalue).bind fun value hv => yields_pure (build hv _ _ _ _)
  · split
    · rename_i hplain
      have hi := (Bool.and_eq_true_iff.mp hplain).1
      exact (shaping.shorthandValue ⟨hi, hk.2⟩).bind fun value hv =>
        yields_pure (build hv _ _ _ _)
    · exact yields_reject _ _

theorem objectMember (role : ObjectRole) :
    Yields (objectMember sub (objectKind role)) (SoundAs isObjectMember) := by
  refine yields_bind fun _ => yields_ite ?_ (shaping.property role)
  refine yields_bind fun _ => (shaping.operandAt rfl).bind fun argument ha => yields_pure ?_
  exact ⟨rfl, sound_of ha.1 (by simp [children, ha.2])⟩

theorem object : Yields (object sub) (SoundAs isExpression) := by
  refine yields_bind fun parser => yields_bind fun _ => ?_
  refine (((shaping.objectMember _).within _).closedList _).bind fun properties hp => ?_
  have hall := allSound_of_forall hp
  exact yields_pure ⟨rfl, sound_of hall.1 (by simpa [children] using hall.2)⟩

end Members

section Statements

/-- An operand that makes up a statement is one already if it is labeled. -/
theorem expressionStatement : Yields (expressionStatement sub) (SoundAs isStatement) := by
  intro parser after node hm
  obtain ⟨expression, between, hoperand, hend⟩ := ok_of_bind_ok hm
  have hf : Frame.wholeStatement.fits parser.lexer.current = true := by
    cases hc : parser.lexer.current with
    | none => rfl
    | some word =>
      simp [Frame.fits, Frame.wholeStatement, Context.expectsBlock, Context.expectsDeclaration,
        Context.innermost, Frame.holdsStatement]
  obtain ⟨hs, hx⟩ := shaping.operand rfl hf hoperand
  split at hend
  · rename_i hstatement
    cases hend
    exact ⟨hstatement, hs⟩
  · rename_i hno
    obtain ⟨_, _, -, hend⟩ := ok_of_bind_ok hend
    cases hend
    have he : expression.isExpression = true := hx.resolve_right fun h => hno h.2
    exact ⟨rfl, sound_of he (by simp [children, hs])⟩

theorem declarator : Yields (declarator sub) (SoundAs isDeclarator) := by
  refine (shaping.operandAt rfl).bind fun target ht => yields_bind fun _ => yields_ite ?_ ?_
  · refine (shaping.operandAt rfl).bind fun value hv => yields_pure ⟨rfl, sound_of ?_ ?_⟩
    · simp [isWellFormed, ht.1, hv.1]
    · simp [children, ht.2, hv.2]
  · refine yields_pure ⟨rfl, sound_of ?_ ?_⟩
    · simp [isWellFormed, ht.1]
    · simp [children, ht.2]

theorem declarators (rounds : Nat) : Yields (declarators sub rounds) (AllSound isDeclarator) := by
  induction rounds with
  | zero => exact yields_throw _ _
  | succ rounds ih =>
    refine shaping.declarator.bind fun first hf => yields_bind fun _ => yields_ite ?_ ?_
    · refine yields_bind fun _ => ih.bind fun others hothers => yields_pure ⟨?_, ?_⟩
      · simp [hf.1, hothers.1]
      · exact List.forall_mem_cons.mpr ⟨hf.2, hothers.2⟩
    · refine yields_pure ⟨?_, List.forall_mem_singleton.mpr hf.2⟩
      simp [hf.1]

theorem variableDeclaration : Yields (variableDeclaration sub) fun node =>
    node.Sound ∧ node.isStatement = true ∧ node.isLoopStart = true := by
  refine yields_bind fun word => ?_
  split
  · refine yields_bind fun _ => yields_bind fun rounds => ?_
    refine (shaping.declarators rounds).bind fun declarations hd => yields_pure ⟨?_, rfl, rfl⟩
    exact sound_of hd.1 (by simpa [children] using hd.2)
  · exact yields_reject _ _

theorem condition {kind : NodeKind} {slot : Slot}
    (h : (Frame.filling kind slot).isClear = true) :
    Yields (condition sub kind slot) (SoundAs isExpression) :=
  (shaping.operandAt h).bind fun _ ht => yields_bind fun _ => yields_pure ht

theorem ifStatement : Yields (ifStatement sub) (SoundAs isStatement) := by
  refine yields_bind fun _ => (shaping.condition rfl).bind fun test ht => ?_
  refine (shaping.statementAt rfl).bind fun consequent hc => yields_bind fun _ => yields_ite ?_ ?_
  · refine (shaping.statementAt rfl).bind fun alternate ha => yields_pure ⟨rfl, sound_of ?_ ?_⟩
    · simp [isWellFormed, ht.1, hc.1, ha.1]
    · simp [children, ht.2, hc.2, ha.2]
  · refine yields_pure ⟨rfl, sound_of ?_ ?_⟩
    · simp [isWellFormed, ht.1, hc.1]
    · simp [children, ht.2, hc.2]

theorem whileStatement : Yields (whileStatement sub) (SoundAs isStatement) := by
  refine yields_bind fun _ => (shaping.condition rfl).bind fun test ht => ?_
  refine (shaping.statementAt rfl).bind fun body hb => yields_pure ⟨rfl, sound_of ?_ ?_⟩
  · simp [isWellFormed, ht.1, hb.1]
  · simp [children, ht.2, hb.2]

theorem doWhile : Yields (doWhile sub) (SoundAs isStatement) := by
  refine yields_bind fun _ => (shaping.statementAt rfl).bind fun body hb => ?_
  refine yields_bind fun _ => yields_ite (yields_bind fun _ => ?_) (yields_reject _ _)
  refine (shaping.condition rfl).bind fun test ht => yields_bind fun _ => ?_
  refine yields_pure ⟨rfl, sound_of ?_ ?_⟩
  · simp [isWellFormed, ht.1, hb.1]
  · simp [children, ht.2, hb.2]

theorem forStart : Yields (forStart sub) (AnySound isLoopStart) := by
  refine yields_bind fun word => ?_
  split
  · exact yields_pure (anySound_none _)
  · refine (shaping.variableDeclaration.within _).bind fun declaration hd => yields_pure ?_
    exact .some ⟨hd.2.2, hd.1⟩
  · refine (shaping.operandAt rfl).bind fun expression he => yields_pure (.some ⟨?_, he.2⟩)
    exact isLoopStart_of_isExpression he.1

theorem forClause {slot : Slot} (h : (Frame.filling .forStatement slot).isClear = true)
    (close : TokenKind) : Yields (forClause sub close slot) (AnySound isExpression) := by
  refine yields_bind fun _ => yields_ite (yields_pure (anySound_none _)) ?_
  exact (shaping.operandAt h).bind fun clause hc => yields_pure (.some hc)

theorem forRest {start : Option Node} (hs : AnySound isLoopStart start) :
    Yields (forRest sub start) (SoundAs isStatement) := by
  refine (shaping.forClause rfl _).bind fun test ht => yields_bind fun _ => ?_
  refine (shaping.forClause rfl _).bind fun step hstep => yields_bind fun _ => ?_
  refine (shaping.statementAt rfl).bind fun body hb => yields_pure ⟨rfl, sound_of ?_ ?_⟩
  · simp [isWellFormed, hs.1, ht.1, hstep.1, hb.1]
  · simpa [children, hb.2] using ⟨hs.2, ht.2, hstep.2⟩

theorem forEachRest {left : Node} (hl : left.SoundAs isLoopStart) (awaits : Bool) :
    Yields (forEachRest sub left awaits) (SoundAs isStatement) := by
  refine yields_bind fun word => ?_
  split
  · rename_i kind _
    have hclear : (Frame.filling (forEachNodeKind kind) .right).isClear = true := by
      cases kind <;> rfl
    have hplace : Context.expectsDeclaration [.filling (forEachNodeKind kind) .body] = true := by
      cases kind <;> rfl
    refine yields_bind fun _ => (shaping.condition hclear).bind fun right hr => ?_
    refine (shaping.statementAt hplace).bind fun body hb => yields_pure ⟨?_, sound_of ?_ ?_⟩
    · cases kind <;> rfl
    · simp [isWellFormed, hl.1, hr.1, hb.1]
    · simp [children, hl.2, hr.2, hb.2]
  · exact yields_reject _ _

theorem forStatement : Yields (forStatement sub) (SoundAs isStatement) := by
  refine yields_bind fun word => yields_bind fun _ => shaping.forStart.bind fun start hs => ?_
  refine yields_bind fun _ => yields_ite (shaping.forRest hs) ?_
  cases start with
  | none => exact yields_reject _ _
  | some left => exact shaping.forEachRest ⟨hs.1, hs.2 left rfl⟩ _

theorem caseTest : Yields (caseTest sub) (AnySound isExpression) := by
  refine yields_bind fun word => ?_
  split
  · refine yields_bind fun _ => (shaping.operandAt rfl).bind fun test ht => ?_
    exact yields_pure (.some ht)
  · exact yields_bind fun _ => yields_pure (anySound_none _)
  · exact yields_reject _ _

theorem switchCase : Yields (switchCase sub) (SoundAs isCase) := by
  refine shaping.caseTest.bind fun test ht => yields_bind fun _ => yields_bind fun rounds => ?_
  refine (shaping.statements rfl rounds).bind fun consequent hc => ?_
  refine yields_pure ⟨rfl, sound_of ?_ ?_⟩
  · simp [isWellFormed, ht.1, hc.1]
  · simpa [children] using ⟨ht.2, hc.2⟩

theorem switchStatement : Yields (switchStatement sub) (SoundAs isStatement) := by
  refine yields_bind fun _ => (shaping.condition rfl).bind fun discriminant hd => ?_
  refine yields_bind fun _ => yields_bind fun rounds => ?_
  refine (shaping.switchCase.manyWhile _ rounds).bind fun cases hcases => yields_bind fun _ => ?_
  have hall := allSound_of_forall hcases
  refine yields_pure ⟨rfl, sound_of ?_ ?_⟩
  · simp [isWellFormed, hd.1, hall.1]
  · simpa [children, hd.2] using hall.2

theorem returnStatement : Yields (returnStatement sub) (SoundAs isStatement) := by
  have bare : (Node.returnStatement none).SoundAs isStatement :=
    ⟨rfl, sound_of rfl (by simp [children])⟩
  refine yields_bind fun word => ?_
  cases word with
  | none => exact yields_pure bare
  | some word =>
    refine yields_ite (yields_bind fun _ => yields_pure bare) (yields_ite (yields_pure bare) ?_)
    refine (shaping.operandAt rfl).bind fun argument ha => yields_bind fun _ => yields_pure ?_
    exact ⟨rfl, sound_of ha.1 (by simpa [children] using ha.2)⟩

theorem exportStatement : Yields (exportStatement sub) (SoundAs isStatement) := by
  refine yields_bind fun _ => yields_bind fun _ => yields_ite yields_exportNamed ?_
  refine (shaping.statementAt rfl).bind fun declaration hd => yields_pure ⟨rfl, sound_of ?_ ?_⟩
  · simp [isWellFormed, hd.1]
  · simp [children, hd.2]

/-- A function or a class behind `export default` is a declaration, all else is an expression. -/
theorem exportDefault : Yields (exportDefault sub) (SoundAs isStatement) := by
  have build {declaration : Node} (hs : declaration.Sound)
      (h : declaration.isStatement = true ∨ declaration.isExpression = true) :
      (Node.exportStatement true declaration).SoundAs isStatement := by
    refine ⟨rfl, sound_of ?_ (by simp [children, hs])⟩
    simpa [isWellFormed] using h
  refine yields_bind fun _ => ?_
  intro parser after node hm
  obtain ⟨word, between, htoken, hrest⟩ := ok_of_bind_ok hm
  obtain ⟨rfl, hw⟩ := of_token_ok htoken
  generalize hk : word.kind = kind at hrest
  split at hrest
  · obtain ⟨declaration, _, hd, hend⟩ := ok_of_bind_ok hrest
    cases hend
    obtain ⟨hd, hs⟩ := shaping.statementAt rfl _ _ _ hd
    exact build hs (Or.inl hd)
  · obtain ⟨declaration, _, hd, hend⟩ := ok_of_bind_ok hrest
    cases hend
    obtain ⟨hd, hs⟩ := shaping.statementAt rfl _ _ _ hd
    exact build hs (Or.inl hd)
  · rename_i hfunction _
    obtain ⟨expression, _, hx, hend⟩ := ok_of_bind_ok hrest
    obtain ⟨_, _, -, hend⟩ := ok_of_bind_ok hend
    cases hend
    have hf : (Frame.filling .exportDefaultStatement .declaration).fits between.lexer.current =
        true := by
      have hne : ¬word.kind = .functionKeyword := by
        rw [hk]
        exact hfunction
      simp [Frame.fits, hw, hne, Context.expectsBlock, Context.innermost, Frame.holdsStatement]
    obtain ⟨hs, hx⟩ := shaping.operand rfl hf hx
    exact build hs (Or.inr (hx.resolve_right fun h => by cases h.1))

/-- A statement in the place of one. -/
theorem statementRule {parser after : Parser} {node : Node}
    (hd : parser.context.expectsDeclaration = true)
    (hm : ParserM.statement sub parser = .ok node after) : node.SoundAs isStatement := by
  obtain ⟨word, between, htoken, hrest⟩ := ok_of_bind_ok hm
  obtain ⟨rfl, -⟩ := of_token_ok htoken
  generalize word.kind = kind at hrest
  split at hrest
  · obtain ⟨hb, hs⟩ := shaping.block _ _ _ hrest
    exact ⟨isStatement_of_isBlock hb, hs⟩
  · exact yields_emptyStatement _ _ _ hrest
  · obtain ⟨declaration, _, hv, hend⟩ := ok_of_bind_ok hrest
    obtain ⟨_, _, -, hend⟩ := ok_of_bind_ok hend
    cases hend
    obtain ⟨hs, hstatement, -⟩ := shaping.variableDeclaration _ _ _ hv
    exact ⟨hstatement, hs⟩
  · obtain ⟨hs, hf⟩ := shaping.function hrest
    rw [if_pos hd] at hf
    exact ⟨hf, hs⟩
  · obtain ⟨hs, hstatement, -⟩ := shaping.classDefinition _ _ _ hrest
    exact ⟨hstatement, hs⟩
  · exact shaping.ifStatement _ _ _ hrest
  · exact shaping.forStatement _ _ _ hrest
  · exact shaping.whileStatement _ _ _ hrest
  · exact shaping.doWhile _ _ _ hrest
  · exact shaping.switchStatement _ _ _ hrest
  · exact shaping.returnStatement _ _ _ hrest
  · exact yields_jump _ _ _ hrest
  · exact yields_jump _ _ _ hrest
  · exact yields_importDeclaration _ _ _ hrest
  · exact shaping.exportStatement _ _ _ hrest
  · exact shaping.exportDefault _ _ _ hrest
  · exact shaping.expressionStatement _ _ _ hrest

end Statements

section Operands

/-- What extends an operand is an expression again, or a labeled statement where an expression makes
up a statement. -/
theorem extension {parser after : Parser} {operand node : Node} {context : Context} {word : Token}
    (ho : operand.SoundAs isExpression) (hw : parser.lexer.current = some word)
    (ha : context.admits operand word = true)
    (hm : extension sub word.kind operand parser = .ok node after) : node.Sound ∧
      (node.isExpression = true ∨
        context.head? = some .wholeStatement ∧ node.isLabeled = true) := by
  have expression {node : Node} (h : node.SoundAs isExpression) : node.Sound ∧
      (node.isExpression = true ∨
        context.head? = some .wholeStatement ∧ node.isLabeled = true) :=
    ⟨h.2, Or.inl h.1⟩
  -- what the place admits rules out the extensions that would not be well formed
  have hadmits := admits_cases ha
  generalize hk : word.kind = kind at hm
  unfold ParserM.extension at hm
  split at hm
  · exact expression (yields_memberAccess ho _ _ _ hm)
  · exact expression (shaping.computedAccess ho _ _ _ hm)
  · exact expression (shaping.call ho (hadmits.call hk) _ _ _ hm)
  · obtain ⟨found, between, htoken, hrest⟩ := ok_of_bind_ok hm
    obtain ⟨rfl, hfound⟩ := of_token_ok htoken
    obtain rfl : word = found := Option.some.inj (hw.symm.trans hfound)
    split at hrest
    · rename_i hu
      obtain ⟨_, _, -, hend⟩ := ok_of_bind_ok hrest
      cases hend
      refine expression ⟨rfl, sound_of ?_ (by simp [children, ho.2])⟩
      simp [isWellFormed, ho.1, hadmits.update hk hu]
    · rw [run_bind, run_budget] at hrest
      exact expression ((shaping.operators _).1 _ ho _ _ _ hrest)
  · exact expression (shaping.assignment ho (hadmits.assignment hk) _ _ _ hm)
  · exact expression (shaping.conditional ho _ _ _ hm)
  · exact expression (shaping.sequence ho hw hk hm)
  · exact expression (shaping.arrowFromOperand ho _ _ _ hm)
  · obtain ⟨hi, hframe⟩ := hadmits.label hk
    obtain ⟨hlabeled, hs⟩ := shaping.labeled ho hi _ _ _ hm
    exact ⟨hs, Or.inr ⟨hframe, hlabeled⟩⟩
  · cases hm

/-- An operand that starts with the current token is an expression, unless the construct takes a
brace for a block or a function for a declaration. -/
theorem opening {opensArrow : ParserM Bool} {parser after : Parser} {node : Node} {word : Token}
    (hb : word.kind = .openBrace → parser.context.expectsBlock = false)
    (hd : word.kind = .functionKeyword → parser.context.expectsDeclaration = false)
    (hm : opening opensArrow sub word parser = .ok node after) : node.SoundAs isExpression := by
  unfold ParserM.opening at hm
  generalize word.kind = kind at hb hd hm
  split at hm
  iterate 5 exact (yields_identifier _ _ _ hm).expression
  · exact yields_reservedWord _ _ _ hm
  iterate 4 exact yields_literal _ _ _ hm
  · exact shaping.template _ _ _ hm
  · obtain ⟨_, _, -, hend⟩ := ok_of_bind_ok hm
    cases hend
    exact ⟨rfl, sound_of rfl (by simp [children])⟩
  · obtain ⟨hs, hf⟩ := shaping.function hm
    rw [hd rfl] at hf
    exact ⟨hf, hs⟩
  · obtain ⟨hs, -, hx⟩ := shaping.classDefinition _ _ _ hm
    exact ⟨hx, hs⟩
  · exact shaping.construction _ _ _ hm
  · exact shaping.yieldOperand _ _ _ hm
  · exact shaping.spread _ _ _ hm
  · exact shaping.openingParen _ _ _ _ hm
  · exact shaping.array _ _ _ hm
  · rw [run_bind, run_get] at hm
    dsimp only at hm
    rw [hb rfl] at hm
    exact shaping.object _ _ _ hm
  · split at hm
    · exact yields_regexOperand _ _ _ hm
    · exact shaping.leadingOperator _ _ _ hm
  · split at hm
    · exact yields_regexOperand _ _ _ hm
    · cases hm
  · cases hm

/-- An operand stays an expression for as long as it is extended in the same construct; only where an
expression makes up a statement can a label make it a statement, and that ends it. -/
theorem extend {opensArrow : ParserM Bool} (rounds : Nat) {parser after : Parser}
    {operand node : Node} (ho : operand.SoundAs isExpression)
    (hm : extend opensArrow sub operand rounds parser = .ok node after) : node.Sound ∧
      (node.isExpression = true ∨
        parser.context.head? = some .wholeStatement ∧ node.isLabeled = true) := by
  induction rounds generalizing operand parser with
  | zero => cases hm
  | succ rounds ih =>
    rw [extend_succ, run_bind, run_current] at hm
    dsimp only at hm
    cases hw : parser.lexer.current with
    | none =>
      rw [hw] at hm
      cases hm
      exact ⟨ho.2, Or.inl ho.1⟩
    | some word =>
      rw [hw] at hm
      dsimp only at hm
      rw [run_bind, run_continues] at hm
      dsimp only at hm
      split at hm
      · rename_i hgoes
        have ha := (Bool.and_eq_true_iff.mp hgoes).2
        obtain ⟨longer, between, hover, hrest⟩ := ok_of_bind_ok hm
        have hkeep : Keeping SameSetting
            (handOver (.extending operand.kind) operand (ParserM.extension sub word.kind)) :=
          sameSetting_lasting.handOver _ _ fun x =>
            sameSetting_lasting.compositional.extension shaping.setting word.kind x
        have hcontext := (hkeep.of_ok hover).context
        have hdepth : parser.context.length < parser.options.maxDepth := by
          by_contra hfull
          rw [run_handOver_full (Nat.not_lt.mp hfull)] at hover
          cases hover
        rw [run_handOver hdepth] at hover
        obtain ⟨inner, hext⟩ := ok_of_within_ok hover
        have hw' : ({ parser with context := .extending operand.kind :: parser.context } :
            Parser).lexer.current = some word := hw
        obtain ⟨hs, hx⟩ := shaping.extension ho hw' ha hext
        rcases hx with hx | ⟨hframe, hlabeled⟩
        · rw [← hcontext]
          exact ih ⟨hx, hs⟩ hrest
        · -- a labeled statement is complete, so it comes out as it is
          obtain rfl := extend_of_isLabeled hlabeled hrest
          exact ⟨hs, Or.inr ⟨hframe, hlabeled⟩⟩
      · cases hm
        exact ⟨ho.2, Or.inl ho.1⟩

end Operands

end Shaping

theorem Shaping.freshOperand {sub : Goal → ParserM Node} (shaping : Shaping sub) {frame : Frame}
    {context : Context} {parser after : Parser} {node : Node}
    (hc : parser.context = frame :: context) (hf : frame.fits parser.lexer.current = true)
    (hm : freshOperand arrowAhead sub parser = .ok node after) : node.Sound ∧
      (node.isExpression = true ∨ frame = .wholeStatement ∧ node.isLabeled = true) := by
  obtain ⟨first, between, hfirst, hrest⟩ := ok_of_bind_ok hm
  have hkeep : Keeping SameSetting (fresh arrowAhead sub) :=
    sameSetting_lasting.compositional.fresh shaping.setting sameSetting_arrowAhead
  have hsame := (hkeep.of_ok hfirst).context
  obtain ⟨word, start, htoken, hopen⟩ := ok_of_bind_ok hfirst
  obtain ⟨rfl, hw⟩ := of_token_ok htoken
  -- the construct decides by its innermost frame, which is the one that the token fits
  rw [hw, Frame.fits, Option.all_some] at hf
  simp only [Bool.and_eq_true, Bool.not_eq_true', Bool.and_eq_false_iff, beq_eq_false_iff_ne] at hf
  have hb : word.kind = .openBrace → start.context.expectsBlock = false := by
    intro hk
    rw [hc]
    exact hf.1.resolve_left fun h => h hk
  have hd : word.kind = .functionKeyword → start.context.expectsDeclaration = false := by
    intro hk
    rw [hc]
    exact hf.2.resolve_left fun h => h hk
  have hx := shaping.opening hb hd hopen
  rw [run_bind, run_budget] at hrest
  obtain ⟨hs, hn⟩ := shaping.extend _ hx hrest
  refine ⟨hs, hn.imp_right fun h => ⟨?_, h.2⟩⟩
  have hhead := h.1
  rw [hsame, hc] at hhead
  exact Option.some.inj hhead

/-- The goals of the grammar have the shapes that its rules rely on, by induction on the room for
constructs inside each other. -/
theorem shaping_goal (room : Nat) : Shaping (goal arrowAhead room) := by
  induction room with
  | zero =>
    refine ⟨?_, ?_, fun hf => (confined_sub 0 .operand hf).keeping,
      sameSetting_lasting.sub sameSetting_arrowAhead 0⟩
    · intro frame _
      exact (yields_throw _ _).within frame
    · intro frame parser after node _ _ hm
      obtain ⟨between, hin⟩ := ok_of_within_ok hm
      cases hin
  | succ room ih =>
    refine ⟨?_, ?_, fun hf => (confined_sub (room + 1) .operand hf).keeping,
      sameSetting_lasting.sub sameSetting_arrowAhead (room + 1)⟩
    · intro frame hd parser after node hm
      obtain ⟨between, hin⟩ := ok_of_within_ok hm
      exact ih.statementRule hd hin
    · intro frame parser after node hf hfits hm
      obtain ⟨between, hin⟩ := ok_of_within_ok hm
      -- the frame is that of a construct, so the operand starts afresh
      have hfresh : freshOperand arrowAhead (goal arrowAhead room)
          { parser with context := frame :: parser.context } = .ok node between := by
        rw [← hin]
        exact (operand_of_not_extending (isExtending_of_isEnclosing hf)).symm
      have hin' : frame.fits ({ parser with context := frame :: parser.context } :
          Parser).lexer.current = true := hfits
      obtain ⟨hs, hn⟩ := ih.freshOperand rfl hin' hfresh
      exact ⟨hs, hn.imp_right fun h => ⟨h.1, isStatement_of_isLabeled h.2⟩⟩

theorem yields_programBody (room rounds : Nat) :
    Yields (programBody (goal arrowAhead room) rounds) (AllSound isStatement) := by
  induction rounds with
  | zero => exact yields_throw _ _
  | succ rounds ih =>
    refine yields_bind fun _ => yields_ite (yields_pure (allSound_nil _)) ?_
    refine ((shaping_goal room).statementAt rfl).bind fun first hf => yields_bind fun _ => ?_
    refine ih.bind fun others hothers => yields_pure ⟨?_, ?_⟩
    · simp [hf.1, hothers.1]
    · exact List.forall_mem_cons.mpr ⟨hf.2, hothers.2⟩

theorem yields_program : Yields (program arrowAhead) Node.Sound := by
  refine yields_bind fun _ => yields_bind fun parser => ?_
  refine (yields_programBody _ _).bind fun body hb => yields_bind fun _ => ?_
  refine yields_ite (yields_pure ?_) (yields_reject _ _)
  exact sound_of hb.1 (by simpa [children] using hb.2)

end ParserM

namespace Parser

open ParserM

theorem run_sound {parser : Parser} {tree : Node} (h : parser.run.1 = .ok tree) : tree.Sound := by
  unfold run at h
  cases hp : program arrowAhead parser with
  | ok node after =>
    rw [hp] at h
    cases h
    exact yields_program _ _ _ hp
  | error failure after =>
    rw [hp] at h
    cases h

/-- Every program that is read is a well formed tree, at every depth, also if the parser has been run
before. The places of statements hold statements; the places of expressions hold expressions, of which
only classes count as statements too; and each node has the parts that belong to it. -/
theorem run_wellFormed (source : String) (options : ParserOptions) (count : Nat) (tree : Node)
    (h : ((ofText source options).afterRuns count).run.1 = .ok tree) :
    (∀ node ∈ tree.preorder, node.isWellFormed = true) ∧
      ∀ node : Node, node.isExpression = true → node.isStatement = true → node.isClass = true :=
  ⟨run_sound h, fun _ => Node.isClass_of_isExpression⟩

theorem run_wellFormed_labeled : ∃ tree,
    ((ofText "a: while (b) c(d && e, f++)" {}).afterRuns 0).run.1 = .ok tree ∧
      tree.isWellFormed = true := by
  have hok : ((ofText "a: while (b) c(d && e, f++)" {}).afterRuns 0).run.1.isOk = true := by
    decide +kernel
  cases he : ((ofText "a: while (b) c(d && e, f++)" {}).afterRuns 0).run.1 with
  | error failure =>
    rw [he] at hok
    cases hok
  | ok tree =>
    have hw := (run_wellFormed _ _ _ tree he).1
    refine ⟨tree, rfl, hw tree ?_⟩
    rw [Node.preorder_eq]
    exact List.mem_cons_self

end Parser

end ScriptTree
