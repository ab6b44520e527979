import ScriptTree.Proofs.RuleProgress

/-!
Chains of operators, members and statements get on.

A chain of operators takes up text in two loops inside each other. Each hands the other the operator
that it has seen, so neither is entered in vain.
-/

namespace ScriptTree

/-- An operator that continues an operand and does not count it up or down binds at least as strong
as the weakest binary operator. -/
theorem Context.strength_of_admits {context : Context} {operand : Node} {word : Token}
    (h : context.admits operand word = true) (hk : word.kind = .operator)
    (hu : Operator.isUpdate word.value = false) :
    ∃ strength, Operator.binaryStrength? word = some strength ∧
      Operator.leastStrength ≤ strength := by
  have hsome : (Operator.binaryStrength? word).isSome = true := by
    unfold Context.admits at h
    split at h
    · cases h
    · simp [hk] at h
    · simp only [hk, hu, Bool.false_eq_true, if_false, Bool.and_eq_true] at h
      exact h.1
  obtain ⟨strength, hs⟩ := Option.isSome_iff_exists.mp hsome
  refine ⟨strength, hs, ?_⟩
  rw [Operator.binaryStrength?, if_pos hk, Option.filter_eq_some_iff] at hs
  have hb := hs.2
  simp only [Bool.and_eq_true, decide_eq_true_eq] at hb
  exact hb.1

namespace ParserM

/-- The current token is a binary operator of at least a given strength. -/
def AtOperator (least : Nat) (parser : Parser) : Prop :=
  ∃ word strength, parser.lexer.current = some word ∧
    Operator.binaryStrength? word = some strength ∧ least ≤ strength

/-- The current token is a binary operator that the right operand of another one takes. -/
def AtTighter (strength : Nat) (parser : Parser) : Prop :=
  ∃ word following, parser.lexer.current = some word ∧
    Operator.binaryStrength? word = some following ∧
      (strength < following ∨ following = strength ∧ Operator.groupsRight word.value = true)

/-- Either there is a binary operator at the current token, and it is seen, or there is none. -/
theorem run_binaryOperator? (parser : Parser) :
    (∃ word strength, parser.lexer.current = some word ∧
      Operator.binaryStrength? word = some strength ∧
        binaryOperator? parser = .ok (some (word.value, strength)) parser) ∨
    (∀ word, parser.lexer.current = some word → Operator.binaryStrength? word = none) ∧
      binaryOperator? parser = .ok none parser := by
  have hrun : binaryOperator? parser = .ok (parser.lexer.current.bind fun word =>
      (Operator.binaryStrength? word).map fun strength => (word.value, strength)) parser := by
    rw [binaryOperator?, run_bind, run_current]
    cases parser.lexer.current <;> rfl
  rw [hrun]
  cases hw : parser.lexer.current with
  | none => exact Or.inr ⟨nofun, rfl⟩
  | some word =>
    rw [Option.bind_some]
    cases hs : Operator.binaryStrength? word with
    | none =>
      refine Or.inr ⟨fun word' h => ?_, rfl⟩
      cases h
      exact hs
    | some strength => exact Or.inl ⟨word, strength, rfl, hs, rfl⟩

variable {room : Nat}

section Operators

variable {sub : Goal → ParserM Node}
  (hsub : ∀ {frame : Frame} (goal : Goal), frame.isEnclosing = true →
    Advances room (within frame (sub goal)))
include hsub

/-- The loop over operators takes one up if it is entered at one; with two rounds for each character
that is left it comes to an end. -/
def TakesWell (room : Nat) (sub : Goal → ParserM Node) (rounds : Nat) : Prop :=
  ∀ {parser : Parser} left least, Ready room parser → 2 * parser.lexer.left + 1 ≤ rounds →
    (takeOperators sub left least rounds parser = .ok left parser ∧ ¬AtOperator least parser) ∨
      EndsWell parser parser.lexer.left (takeOperators sub left least rounds parser)

/-- So does the loop inside it, which enters it only at operators. -/
def AbsorbsWell (room : Nat) (sub : Goal → ParserM Node) (rounds : Nat) : Prop :=
  ∀ {parser : Parser} right strength, Ready room parser → 2 * parser.lexer.left + 2 ≤ rounds →
    (absorb sub right strength rounds parser = .ok right parser ∧ ¬AtTighter strength parser) ∨
      EndsWell parser parser.lexer.left (absorb sub right strength rounds parser)

omit hsub in
theorem AbsorbsWell.endsWell {rounds : Nat} (h : AbsorbsWell room sub rounds) {parser : Parser}
    (right : Node) (strength : Nat) (hr : Ready room parser)
    (hb : 2 * parser.lexer.left + 2 ≤ rounds) :
    EndsWell parser (parser.lexer.left + 1) (absorb sub right strength rounds parser) := by
  rcases h right strength hr hb with ⟨h, -⟩ | h
  · rw [h]
    exact .refl hr right
  · exact h.mono (Nat.le_succ _)

theorem takesWell_succ {rounds : Nat} (ihTake : TakesWell room sub rounds)
    (ihAbsorb : AbsorbsWell room sub rounds) : TakesWell room sub (rounds + 1) := by
  intro parser left least hr hb
  rw [takeOperators, run_bind]
  rcases run_binaryOperator? parser with ⟨word, strength, hw, hs, hrun⟩ | ⟨hno, hrun⟩
  · rw [hrun]
    dsimp only
    split
    · rename_i hlow
      refine Or.inl ⟨rfl, ?_⟩
      rintro ⟨word', strength', hw', hs', hle⟩
      obtain rfl : word = word' := Option.some.inj (hw.symm.trans hw')
      obtain rfl : strength = strength' := Option.some.inj (hs.symm.trans hs')
      exact Nat.not_lt.mpr hle hlow
    · -- the operator itself uses up the rounds for what is behind it
      right
      have hnext := passes_nextToken.movesOn parser word hr hw
      refine EndsWell.bind hr hnext fun _ p₁ _ hr₁ hl₁ => ?_
      have hoperand := advances_operandAt hsub .binaryExpression .operand p₁ hr₁
      refine EndsWell.bind hr₁ hoperand fun right p₂ _ hr₂ hl₂ => ?_
      have habsorb := ihAbsorb.endsWell right strength hr₂ (by omega)
      refine EndsWell.bind hr₂ habsorb fun right p₃ _ hr₃ hl₃ => ?_
      rcases ihTake _ least hr₃ (by omega) with ⟨h, -⟩ | h
      · rw [h]
        exact (EndsWell.refl hr₃ _).mono (by omega)
      · exact h.mono (by omega)
  · rw [hrun]
    refine Or.inl ⟨rfl, ?_⟩
    rintro ⟨word, strength, hw, hs, -⟩
    rw [hno word hw] at hs
    cases hs

omit hsub in
theorem absorbsWell_succ {rounds : Nat} (ihTake : TakesWell room sub rounds)
    (ihAbsorb : AbsorbsWell room sub rounds) : AbsorbsWell room sub (rounds + 1) := by
  intro parser right strength hr hb
  -- the outer loop is entered at an operator that it takes up
  have htaken (least : Nat) (hat : AtOperator least parser) :
      EndsWell parser parser.lexer.left ((do
        let right ← takeOperators sub right least rounds
        absorb sub right strength rounds : ParserM Node) parser) := by
    have htake := (ihTake right least hr (by omega)).resolve_left fun h => h.2 hat
    refine EndsWell.bind hr htake fun right between _ hr₁ hl₁ => ?_
    exact (ihAbsorb.endsWell right strength hr₁ (by omega)).mono (by omega)
  rw [absorb, run_bind]
  rcases run_binaryOperator? parser with ⟨word, following, hw, hs, hrun⟩ | ⟨hno, hrun⟩
  · rw [hrun]
    dsimp only
    split
    · rename_i htighter
      exact Or.inr (htaken (strength + 1) ⟨word, following, hw, hs, htighter⟩)
    · rename_i hloose
      split
      · rename_i hsame
        exact Or.inr (htaken strength ⟨word, following, hw, hs, hsame.1.ge⟩)
      · rename_i hdiffers
        refine Or.inl ⟨rfl, ?_⟩
        rintro ⟨word', following', hw', hs', htakes⟩
        obtain rfl : word = word' := Option.some.inj (hw.symm.trans hw')
        obtain rfl : following = following' := Option.some.inj (hs.symm.trans hs')
        exact htakes.elim hloose hdiffers
  · rw [hrun]
    refine Or.inl ⟨rfl, ?_⟩
    rintro ⟨word, following, hw, hs, -⟩
    rw [hno word hw] at hs
    cases hs

theorem endsWell_operators (rounds : Nat) :
    TakesWell room sub rounds ∧ AbsorbsWell room sub rounds := by
  induction rounds with
  | zero =>
    constructor
    · intro parser left least _ hb
      exact absurd hb (by omega)
    · intro parser right strength _ hb
      exact absurd hb (by omega)
  | succ rounds ih =>
    exact ⟨takesWell_succ hsub ih.1 ih.2, absorbsWell_succ ih.1 ih.2⟩

/-- An operator behind an operand that it continues is taken up. -/
theorem endsWell_followingOperator {parser : Parser} {word : Token} (left : Node)
    (hr : Ready room parser) (hw : parser.lexer.current = some word)
    (hat : Operator.isUpdate word.value = false → AtOperator Operator.leastStrength parser) :
    EndsWell parser parser.lexer.left (followingOperator sub left parser) := by
  rw [followingOperator, run_bind, run_token hw]
  dsimp only
  split
  · exact (passes_nextToken.bind fun _ => steady_pure _).movesOn parser word hr hw
  · rename_i hu
    rw [run_bind, run_budget]
    have hb := hr.left_lt_budget
    have htake := (endsWell_operators hsub parser.budget).1 left Operator.leastStrength hr
      (by omega)
    exact htake.resolve_left fun h => h.2 (hat (Bool.eq_false_iff.mpr hu))

/-- Each round of a sequence passes a comma and an operand. -/
theorem endsWell_sequenceRest (rounds : Nat) {parser : Parser} (hr : Ready room parser)
    (hl : parser.lexer.left < rounds) :
    EndsWell parser (parser.lexer.left + 1) (sequenceRest sub rounds parser) ∧
      ((parser.lexer.current.any fun token => token.kind == .comma) = true →
        EndsWell parser parser.lexer.left (sequenceRest sub rounds parser)) := by
  induction rounds generalizing parser with
  | zero => exact absurd hl (Nat.not_lt_zero _)
  | succ rounds ih =>
    rw [sequenceRest, run_bind, run_accept]
    by_cases hc : (parser.lexer.current.any fun token => token.kind == .comma) = true
    · rw [if_pos hc]
      have hstep : EndsWell parser parser.lexer.left (nextToken parser) := advances_of_any hr hc
      have hgo : EndsWell parser parser.lexer.left ((do
          nextToken
          let expression ← operandAt sub .sequenceExpression .expressions
          let others ← sequenceRest sub rounds
          pure (expression :: others) : ParserM (List Node)) parser) := by
        refine EndsWell.bind hr hstep fun _ p₁ _ hr₁ hl₁ => ?_
        have hoperand := advances_operandAt hsub .sequenceExpression .expressions p₁ hr₁
        refine EndsWell.bind hr₁ hoperand fun expression p₂ _ hr₂ hl₂ => ?_
        refine EndsWell.bind hr₂ (ih hr₂ (by omega)).1 fun others p₃ _ hr₃ hl₃ => ?_
        exact (EndsWell.refl hr₃ _).mono (by omega)
      exact ⟨hgo.mono (Nat.le_succ _), fun _ => hgo⟩
    · rw [if_neg hc]
      exact ⟨.refl hr [], fun h => absurd h hc⟩

theorem endsWell_sequence {parser : Parser} {word : Token} (first : Node) (hr : Ready room parser)
    (hw : parser.lexer.current = some word) (hk : word.kind = .comma) :
    EndsWell parser parser.lexer.left (sequence sub first parser) := by
  have hb := hr.left_lt_budget
  have hc : (parser.lexer.current.any fun token => token.kind == .comma) = true := by
    simp [hw, hk]
  have hrest := (endsWell_sequenceRest hsub parser.budget hr (by omega)).2 hc
  rw [sequence, run_bind, run_budget]
  refine EndsWell.bind hr hrest fun others after _ hr₁ hl₁ => ?_
  exact (EndsWell.refl hr₁ _).mono (by omega)

/-- What extends an operand passes the token that continues the operand. -/
theorem endsWell_extension {parser : Parser} {operand : Node} {context : Context} {word : Token}
    (hr : Ready room parser) (hw : parser.lexer.current = some word)
    (ha : context.admits operand word = true) :
    EndsWell parser parser.lexer.left (extension sub word.kind operand parser) := by
  generalize hk : word.kind = kind
  unfold extension
  split
  · exact (passes_memberAccess operand).movesOn parser word hr hw
  · exact (passes_computedAccess hsub operand).movesOn parser word hr hw
  · exact advances_call hsub operand parser hr
  · refine endsWell_followingOperator hsub operand hr hw fun hu => ?_
    obtain ⟨strength, hs, hle⟩ := Context.strength_of_admits ha hk hu
    exact ⟨word, strength, hw, hs, hle⟩
  · exact advances_assignment hsub operand parser hr
  · exact (passes_conditional hsub operand).movesOn parser word hr hw
  · exact endsWell_sequence hsub operand hr hw hk
  · exact (passes_arrowFromOperand hsub operand).movesOn parser word hr hw
  · exact (passes_labeled hsub operand).movesOn parser word hr hw
  · exact endsWell_rejected _ _

end Operators

section Members

variable {sub : Goal → ParserM Node}
  (hsub : ∀ {frame : Frame} (goal : Goal), frame.isEnclosing = true →
    Advances room (within frame (sub goal)))
include hsub

theorem advances_functionRest (role : FunctionRole) (isAsync isGenerator : Bool)
    (name : Option Node) : Advances room (functionRest sub role isAsync isGenerator name) := by
  refine (advances_require _).bind fun _ => ?_
  refine (advances_closedList _ (advances_operandAt hsub _ _)).steady.bind fun _ => ?_
  exact (steady_within _ (advances_block hsub).steady).bind fun _ => steady_pure _

theorem advances_function : Advances room (function sub) := by
  refine advances_token fun word => Advances.movesOn ?_
  refine looks_get.steady.advances fun _ => (passes_nextTokenIn _).steady.advances fun word => ?_
  exact (steady_functionName _).advances fun _ => advances_functionRest hsub _ _ _ _

theorem advances_memberKey (owner : NodeKind) : Advances room (memberKey sub owner) := by
  refine advances_token fun word => ?_
  split
  · refine Passes.movesOn (passes_nextToken.bind fun _ => ?_)
    refine (advances_operandAt hsub _ _).steady.bind fun _ => ?_
    exact (advances_require _).steady.bind fun _ => steady_pure _
  · exact (advances_literal.bind fun _ => steady_pure _).movesOn
  · exact (advances_literal.bind fun _ => steady_pure _).movesOn
  · split
    · exact (advances_name.bind fun _ => steady_pure _).movesOn
    · exact (advances_reject _).movesOn

theorem advances_classMember : Advances room (classMember sub) := by
  refine (steady_acceptModifier _).advances fun isStatic => steady_acceptAsync.advances fun _ => ?_
  refine (steady_acceptText _ _).advances fun _ => steady_methodKind.advances fun _ => ?_
  -- the modifiers may all be missing, the key may not
  refine (advances_memberKey hsub _).bind fun key => (looks_isAt _).steady.bind fun _ => ?_
  split
  · exact (advances_functionRest hsub _ _ _ _).steady.bind fun _ => steady_pure _
  · have ending (value : Option Node) : Steady room (do
        let _ ← accept .semicolon
        pure (Node.propertyDefinition isStatic key.1 key.2 value)) :=
      (steady_accept _).bind fun _ => steady_pure _
    refine (steady_acceptText _ _).bind fun _ => ?_
    split
    · exact (advances_operandAt hsub _ _).steady.bind fun _ => (steady_pure _).bind ending
    · exact (steady_pure _).bind ending

/-- Each round over the members of a class passes a semicolon or a member. -/
theorem endsWell_classMembers (rounds : Nat) {parser : Parser} (hr : Ready room parser)
    (hl : parser.lexer.left < rounds) :
    EndsWell parser (parser.lexer.left + 1) (classMembers sub rounds parser) := by
  induction rounds generalizing parser with
  | zero => exact absurd hl (Nat.not_lt_zero _)
  | succ rounds ih =>
    rw [classMembers, run_bind, run_isAt]
    dsimp only
    split
    · exact .refl hr []
    · refine EndsWell.bind hr (steady_accept .semicolon parser hr) fun found p₁ hm hr₁ hl₁ => ?_
      split
      · rename_i htrue
        subst htrue
        have hlt := left_lt_of_accept hr hm
        exact (ih hr₁ (by omega)).mono (by omega)
      · have hmember := advances_within (.filling .classBody .body) (advances_classMember hsub) p₁ hr₁
        refine EndsWell.bind hr₁ hmember fun first p₂ _ hr₂ hl₂ => ?_
        refine EndsWell.bind hr₂ (ih hr₂ (by omega)) fun others p₃ _ hr₃ hl₃ => ?_
        exact (EndsWell.refl hr₃ _).mono (by omega)

theorem passes_classDefinition : Passes room (classDefinition sub) := by
  refine passes_nextToken.bind fun _ => steady_className.bind fun name => ?_
  have body (superClass : Option Node) : Steady room (do
      require .openBrace
      let members ← classMembers sub (← budget)
      require .closeBrace
      pure (Node.classDeclaration name superClass (.classBody members))) := by
    refine (advances_require _).steady.bind fun _ => ?_
    refine (steady_of_rounds (endsWell_classMembers hsub _)).looping fun _ => ?_
    exact (advances_require _).steady.bind fun _ => steady_pure _
  refine (steady_accept _).bind fun _ => ?_
  split
  · exact (advances_operandAt hsub _ _).steady.bind fun _ => (steady_pure _).bind body
  · exact (steady_pure _).bind body

theorem steady_shorthandValue (key : Node) : Steady room (shorthandValue sub key) := by
  refine (steady_acceptText _ _).bind fun _ => ?_
  split
  · exact (advances_operandAt hsub _ _).steady.bind fun _ => steady_pure _
  · exact steady_pure key

theorem advances_property (owner : NodeKind) : Advances room (property sub owner) := by
  refine steady_acceptAsync.advances fun _ => (steady_acceptText _ _).advances fun _ => ?_
  refine steady_propertyKind.advances fun _ => (advances_memberKey hsub _).bind fun key => ?_
  refine (looks_isAt _).steady.bind fun _ => ?_
  split
  · exact (advances_functionRest hsub _ _ _ _).steady.bind fun _ => steady_pure _
  · refine (steady_accept _).bind fun _ => ?_
    split
    · exact (advances_operandAt hsub _ _).steady.bind fun _ => steady_pure _
    · split
      · exact (steady_shorthandValue hsub _).bind fun _ => steady_pure _
      · exact steady_reject _

theorem advances_objectMember (owner : NodeKind) : Advances room (objectMember sub owner) := by
  refine (looks_isAt _).steady.advances fun _ => ?_
  split
  · exact advances_spread hsub
  · exact advances_property hsub owner

theorem advances_object : Advances room (object sub) := by
  refine looks_get.steady.advances fun _ => passes_nextToken.steady.advances fun _ => ?_
  refine (advances_closedList _ (advances_within _ (advances_objectMember hsub _))).bind fun _ => ?_
  exact steady_pure _

end Members

section Statements

variable {sub : Goal → ParserM Node}
  (hsub : ∀ {frame : Frame} (goal : Goal), frame.isEnclosing = true →
    Advances room (within frame (sub goal)))
include hsub

theorem advances_expressionStatement : Advances room (expressionStatement sub) := by
  refine (advances_operandAt hsub _ _).bind fun _ => ?_
  split
  · exact steady_pure _
  · exact (steady_accept _).bind fun _ => steady_pure _

theorem advances_declarator : Advances room (declarator sub) := by
  refine (advances_operandAt hsub _ _).bind fun _ => (steady_acceptText _ _).bind fun _ => ?_
  split
  · exact (advances_operandAt hsub _ _).steady.bind fun _ => steady_pure _
  · exact steady_pure _

theorem endsWell_declarators (rounds : Nat) {parser : Parser} (hr : Ready room parser)
    (hl : parser.lexer.left < rounds) :
    EndsWell parser (parser.lexer.left + 1) (declarators sub rounds parser) := by
  induction rounds generalizing parser with
  | zero => exact absurd hl (Nat.not_lt_zero _)
  | succ rounds ih =>
    rw [declarators]
    refine EndsWell.bind hr (advances_declarator hsub parser hr) fun first p₁ _ hr₁ hl₁ => ?_
    rw [run_bind, run_isAt]
    dsimp only
    split
    · have hnext := (passes_nextTokenIn .names).steady p₁ hr₁
      refine EndsWell.bind hr₁ hnext fun _ p₂ _ hr₂ hl₂ => ?_
      refine EndsWell.bind hr₂ (ih hr₂ (by omega)) fun others p₃ _ hr₃ hl₃ => ?_
      exact (EndsWell.refl hr₃ _).mono (by omega)
    · exact (EndsWell.refl hr₁ _).mono (by omega)

theorem advances_variableDeclaration : Advances room (variableDeclaration sub) := by
  refine advances_token fun word => Passes.movesOn ?_
  split
  · refine (passes_nextTokenIn _).bind fun _ => ?_
    exact (steady_of_rounds (endsWell_declarators hsub _)).looping fun _ => steady_pure _
  · exact passes_reject _

theorem advances_condition (kind : NodeKind) (slot : Slot) :
    Advances room (condition sub kind slot) :=
  (advances_operandAt hsub _ _).bind fun _ => (advances_require _).steady.bind fun _ =>
    steady_pure _

theorem passes_ifStatement : Passes room (ifStatement sub) := by
  refine passes_enterParens.bind fun _ => (advances_condition hsub _ _).steady.bind fun _ => ?_
  refine (advances_statementAt hsub _ _).steady.bind fun _ => (steady_accept _).bind fun _ => ?_
  split
  · exact (advances_statementAt hsub _ _).steady.bind fun _ => steady_pure _
  · exact steady_pure _

theorem passes_whileStatement : Passes room (whileStatement sub) :=
  passes_enterParens.bind fun _ => (advances_condition hsub _ _).steady.bind fun _ =>
    (advances_statementAt hsub _ _).steady.bind fun _ => steady_pure _

theorem passes_doWhile : Passes room (doWhile sub) := by
  refine passes_nextToken.bind fun _ => (advances_statementAt hsub _ _).steady.bind fun _ => ?_
  refine (looks_isAt _).steady.bind fun _ => ?_
  split
  · refine passes_enterParens.steady.bind fun _ => (advances_condition hsub _ _).steady.bind ?_
    exact fun _ => (steady_accept _).bind fun _ => steady_pure _
  · exact steady_reject _

theorem steady_forStart : Steady room (forStart sub) := by
  refine looks_token.steady.bind fun word => ?_
  split
  · exact steady_pure none
  · exact (steady_within _ (advances_variableDeclaration hsub).steady).bind fun _ => steady_pure _
  · exact (advances_operandAt hsub _ _).steady.bind fun _ => steady_pure _

theorem steady_forClause (close : TokenKind) (slot : Slot) :
    Steady room (forClause sub close slot) := by
  refine (looks_isAt _).steady.bind fun _ => ?_
  split
  · exact steady_pure none
  · exact (advances_operandAt hsub _ _).steady.bind fun _ => steady_pure _

theorem steady_forRest (start : Option Node) : Steady room (forRest sub start) := by
  refine (steady_forClause hsub _ _).bind fun _ => (advances_require _).steady.bind fun _ => ?_
  refine (steady_forClause hsub _ _).bind fun _ => (advances_require _).steady.bind fun _ => ?_
  exact (advances_statementAt hsub _ _).steady.bind fun _ => steady_pure _

theorem steady_forEachRest (left : Node) (awaits : Bool) :
    Steady room (forEachRest sub left awaits) := by
  refine looks_token.steady.bind fun word => ?_
  split
  · refine passes_nextToken.steady.bind fun _ => (advances_condition hsub _ _).steady.bind ?_
    exact fun _ => (advances_statementAt hsub _ _).steady.bind fun _ => steady_pure _
  · exact steady_reject _

theorem advances_forStatement : Advances room (forStatement sub) := by
  refine advances_token fun word => Passes.movesOn ?_
  refine passes_nextToken.bind fun _ => (steady_forStart hsub).bind fun start => ?_
  refine (steady_accept _).bind fun _ => ?_
  split
  · exact steady_forRest hsub start
  · cases start with
    | none => exact steady_reject _
    | some left => exact steady_forEachRest hsub left _

theorem advances_caseTest : Advances room (caseTest sub) := by
  refine advances_token fun word => Passes.movesOn ?_
  split
  · exact passes_nextToken.bind fun _ => (advances_operandAt hsub _ _).steady.bind fun _ =>
      steady_pure _
  · exact passes_nextToken.bind fun _ => steady_pure none
  · exact passes_reject _

theorem advances_switchCase : Advances room (switchCase sub) := by
  refine (advances_caseTest hsub).bind fun _ => (advances_require _).steady.bind fun _ => ?_
  exact (steady_manyWhile _ (advances_statementAt hsub _ _)).looping fun _ => steady_pure _

theorem passes_switchStatement : Passes room (switchStatement sub) := by
  refine passes_enterParens.bind fun _ => (advances_condition hsub _ _).steady.bind fun _ => ?_
  refine (advances_require _).steady.bind fun _ => ?_
  refine (steady_manyWhile _ (advances_switchCase hsub)).looping fun _ => ?_
  exact (advances_require _).steady.bind fun _ => steady_pure _

theorem passes_returnStatement : Passes room (returnStatement sub) := by
  refine (passes_nextTokenIn _).bind fun word => ?_
  cases word with
  | none => exact steady_pure _
  | some word =>
    dsimp only
    split
    · exact passes_nextToken.steady.bind fun _ => steady_pure _
    · split
      · exact steady_pure _
      · exact (advances_operandAt hsub _ _).steady.bind fun _ => (steady_accept _).bind fun _ =>
          steady_pure _

theorem advances_declarationStatement : Advances room (declarationStatement sub) :=
  (advances_variableDeclaration hsub).bind fun _ => (steady_accept _).bind fun _ => steady_pure _

theorem passes_exportStatement : Passes room (exportStatement sub) := by
  refine passes_nextToken.bind fun _ => (looks_isAt _).steady.bind fun _ => ?_
  split
  · exact passes_exportNamed.steady
  · exact (advances_statementAt hsub _ _).steady.bind fun _ => steady_pure _

theorem passes_exportDefault : Passes room (exportDefault sub) := by
  refine passes_nextToken.bind fun _ => looks_token.steady.bind fun word => ?_
  split
  · exact (advances_statementAt hsub _ _).steady.bind fun _ => steady_pure _
  · exact (advances_statementAt hsub _ _).steady.bind fun _ => steady_pure _
  · exact (advances_operandAt hsub _ _).steady.bind fun _ => (steady_accept _).bind fun _ =>
      steady_pure _

theorem advances_statement : Advances room (statement sub) := by
  refine advances_token fun word => ?_
  split
  · exact (advances_block hsub).movesOn
  · exact passes_emptyStatement.movesOn
  · exact (advances_declarationStatement hsub).movesOn
  · exact (advances_function hsub).movesOn
  · exact (passes_classDefinition hsub).movesOn
  · exact (passes_ifStatement hsub).movesOn
  · exact (advances_forStatement hsub).movesOn
  · exact (passes_whileStatement hsub).movesOn
  · exact (passes_doWhile hsub).movesOn
  · exact (passes_switchStatement hsub).movesOn
  · exact (passes_returnStatement hsub).movesOn
  · exact advances_jump.movesOn
  · exact advances_jump.movesOn
  · exact passes_importDeclaration.movesOn
  · exact (passes_exportStatement hsub).movesOn
  · exact (passes_exportDefault hsub).movesOn
  · exact (advances_expressionStatement hsub).movesOn

end Statements

end ParserM

end ScriptTree
