import ScriptTree.Proofs.StepProgress

/-!
The grammar rules get on.

Every rule that stands for a node, a statement or a member ends further on in the text than it
started, and none runs out of steps, given that this holds of the statements and operands inside it.
-/

namespace ScriptTree

namespace ParserM

/-- The same after a loop that is run with the budget. -/
theorem Steady.looping {α β : Type} {room : Nat} {loop : Nat → ParserM α} {f : α → ParserM β}
    (h : Steady room (budget >>= loop)) (hf : ∀ a, Steady room (f a)) :
    Steady room (budget >>= fun rounds => loop rounds >>= f) := by
  rw [← bind_assoc]
  exact h.bind hf

variable {room : Nat}

theorem advances_identifier : Advances room identifier :=
  advances_token fun _ => (passes_nextToken.bind fun _ => steady_pure _).movesOn

theorem advances_literal : Advances room literal := by
  refine advances_token fun word => Passes.movesOn ?_
  have close (value : LiteralValue) :
      Passes room (do nextToken; pure (Node.literal value word.raw)) :=
    passes_nextToken.bind fun _ => steady_pure _
  dsimp only
  split
  · split
    · exact (looks_pure _).passes close
    · exact (looks_reject _).passes close
  · exact (looks_pure _).passes close
  · exact (looks_pure _).passes close
  · exact (looks_pure _).passes close
  · exact (looks_reject _).passes close

theorem advances_reservedWord : Advances room reservedWord := by
  refine advances_token fun word => (passes_nextToken.bind fun _ => ?_).movesOn
  split
  · exact steady_pure _
  · exact steady_pure _

theorem advances_regexOperand : Advances room regexOperand := by
  refine (steady_reread .regexes).advances fun word => ?_
  cases word with
  | none => exact advances_reject _
  | some word =>
    dsimp only
    split
    · exact advances_literal
    · exact advances_reject _

theorem passes_memberAccess (owner : Node) : Passes room (memberAccess owner) := by
  refine (passes_nextTokenIn .names).bind fun word => ?_
  cases word with
  | none => exact steady_reject _
  | some word =>
    dsimp only
    split
    · exact passes_nextToken.steady.bind fun _ => steady_pure _
    · exact steady_reject _

theorem steady_functionName (word : Option Token) : Steady room (functionName word) := by
  cases word with
  | none => exact steady_pure none
  | some word =>
    dsimp only [functionName]
    split
    · exact passes_nextToken.steady.bind fun _ => steady_pure _
    · exact steady_pure none

theorem steady_acceptModifier (kind : TokenKind) : Steady room (acceptModifier kind) := by
  refine (looks_isAt kind).steady.bind fun _ => ?_
  split
  · exact steady_tryModifier false
  · exact steady_pure false

theorem steady_acceptAsync : Steady room acceptAsync := by
  refine (looks_isAtText _ _).steady.bind fun _ => ?_
  split
  · exact steady_tryModifier true
  · exact steady_pure false

theorem steady_methodKind : Steady room methodKind := by
  refine (steady_acceptModifier _).bind fun _ => ?_
  split
  · exact steady_pure _
  · refine (steady_acceptModifier _).bind fun _ => ?_
    split <;> exact steady_pure _

theorem steady_propertyKind : Steady room propertyKind := by
  refine (steady_acceptModifier _).bind fun _ => ?_
  split
  · exact steady_pure _
  · refine (steady_acceptModifier _).bind fun _ => ?_
    split <;> exact steady_pure _

theorem steady_className : Steady room className := by
  refine (looks_isAt _).steady.bind fun _ => ?_
  split
  · exact advances_identifier.steady.bind fun _ => steady_pure _
  · exact steady_pure none

theorem passes_enterParens : Passes room enterParens := by
  refine (passes_nextTokenIn _).bind fun word => ?_
  cases word with
  | some word => exact passes_nextToken.steady
  | none => exact (steady_reread _).bind fun _ => steady_reject _

theorem passes_emptyStatement : Passes room emptyStatement :=
  passes_nextToken.bind fun _ => steady_pure _

theorem advances_jump : Advances room jump :=
  advances_token fun _ => (passes_nextToken.bind fun _ =>
    (steady_accept _).bind fun _ => steady_pure _).movesOn

theorem advances_moduleName : Advances room moduleName := by
  refine (looks_isAt _).steady.advances fun _ => ?_
  split
  · exact advances_literal
  · exact advances_reject _

theorem steady_renamed (first : Node) : Steady room (renamed first) := by
  refine (steady_acceptText _ _).bind fun _ => ?_
  split
  · exact advances_name.steady
  · exact steady_pure first

theorem advances_importSpecifier : Advances room importSpecifier :=
  advances_name.bind fun _ => (steady_renamed _).bind fun _ => steady_pure _

theorem advances_exportSpecifier : Advances room exportSpecifier :=
  advances_name.bind fun _ => (steady_renamed _).bind fun _ => steady_pure _

theorem steady_importBindings : Steady room importBindings := by
  refine (steady_acceptText _ _).bind fun _ => ?_
  split
  · refine (advances_requireText _ _).steady.bind fun _ => ?_
    exact advances_name.steady.bind fun _ => steady_pure _
  · refine (advances_require _).steady.bind fun _ => ?_
    exact (advances_closedList _ advances_importSpecifier).steady

theorem steady_importSpecifiers : Steady room importSpecifiers := by
  refine looks_current.steady.bind fun word => ?_
  split
  · refine advances_name.steady.bind fun _ => (steady_accept _).bind fun _ => ?_
    split
    · exact steady_importBindings.bind fun _ => steady_pure _
    · exact steady_pure _
  · exact steady_importBindings

theorem passes_importDeclaration : Passes room importDeclaration := by
  refine passes_nextToken.bind fun _ => (looks_isAt _).steady.bind fun _ => ?_
  have source (specifiers : List Node) : Steady room (do
      let source ← moduleName
      let _ ← accept .semicolon
      pure (Node.importDeclaration specifiers source)) :=
    advances_moduleName.steady.bind fun _ => (steady_accept _).bind fun _ => steady_pure _
  split
  · exact (steady_pure _).bind source
  · refine (steady_within _ steady_importSpecifiers).bind fun _ => ?_
    exact (advances_requireText _ _).steady.bind fun _ => (steady_pure _).bind source

theorem passes_exportNamed : Passes room exportNamed := by
  refine passes_nextToken.bind fun _ => ?_
  refine (steady_within _ (steady_commaList _ advances_exportSpecifier)).bind fun specifiers => ?_
  refine (advances_require _).steady.bind fun _ => (steady_acceptText _ _).bind fun _ => ?_
  have ending (source : Option Node) : Steady room (do
      let _ ← accept .semicolon
      pure (Node.exportNamed specifiers source)) :=
    (steady_accept _).bind fun _ => steady_pure _
  split
  · exact advances_moduleName.steady.bind fun _ => (steady_pure _).bind ending
  · exact (steady_pure _).bind ending

section Rules

variable {sub : Goal → ParserM Node}
  (hsub : ∀ {frame : Frame} (goal : Goal), frame.isEnclosing = true →
    Advances room (within frame (sub goal)))
include hsub

theorem advances_operandAt (kind : NodeKind) (slot : Slot) :
    Advances room (operandAt sub kind slot) :=
  hsub .operand rfl

theorem advances_statementAt (kind : NodeKind) (slot : Slot) :
    Advances room (statementAt sub kind slot) :=
  hsub .statement rfl

/-- Each round of a template passes a piece of its text, and with it the token before. -/
theorem endsWell_templateParts (rounds : Nat) {parser : Parser} (hr : Ready room parser)
    (hl : parser.lexer.left < rounds) :
    EndsWell parser (parser.lexer.cursor.rest.length + 1) (templateParts sub rounds parser) := by
  induction rounds generalizing parser with
  | zero => exact absurd hl (Nat.not_lt_zero _)
  | succ rounds ih =>
    have hcursor := hr.faithful.cursor_le_left
    have hstep := passes_nextTokenIn .templateText parser hr
    rw [templateParts]
    refine EndsWell.bind hr hstep fun chunk between hm hr₁ hl₁ => ?_
    have hc : between.lexer.current = chunk := by
      cases hm
      rfl
    cases chunk with
    | none => exact endsWell_rejected _ _
    | some chunk =>
      dsimp only
      split
      · -- the token that opens the substitution is behind when the loop goes on
        have hnext := passes_nextToken.movesOn between chunk hr₁ hc
        refine EndsWell.bind hr₁ hnext fun _ behind _ hr₂ hl₂ => ?_
        have hoperand := advances_operandAt hsub .templateLiteral .expressions behind hr₂
        refine EndsWell.bind hr₂ hoperand fun expression last _ hr₃ hl₃ => ?_
        have hcursor' := hr₃.faithful.cursor_le_left
        rw [run_bind, run_isAt]
        dsimp only
        split
        · refine EndsWell.bind hr₃ (ih hr₃ (by omega)) fun parts after _ hr₄ hl₄ => ?_
          exact (EndsWell.refl hr₄ _).mono (by omega)
        · exact endsWell_rejected _ _
      · exact (EndsWell.refl hr₁ _).mono (by omega)

theorem passes_template : Passes room (template sub) := by
  intro parser hr
  have hb := hr.left_lt_budget
  rw [template, run_bind, run_budget]
  refine EndsWell.bind hr (endsWell_templateParts hsub parser.budget hr (by omega)) ?_
  intro parts between _ hr₁ hl₁
  refine (passes_nextToken.steady.bind (fun _ => steady_pure _) between hr₁).mono ?_
  omega

theorem advances_spread : Advances room (spread sub) :=
  passes_nextToken.steady.advances fun _ =>
    (advances_operandAt hsub _ _).bind fun _ => steady_pure _

theorem advances_array : Advances room (array sub) :=
  passes_nextToken.steady.advances fun _ =>
    (advances_closedList _ (advances_operandAt hsub _ _)).bind fun _ => steady_pure _

theorem advances_block : Advances room (block sub) := by
  refine (advances_require _).bind fun _ => ?_
  refine (steady_manyWhile _ (advances_statementAt hsub _ _)).looping fun _ => ?_
  exact (advances_require _).steady.bind fun _ => steady_pure _

theorem advances_arrowBody (params : List Node) : Advances room (arrowBody sub params) := by
  refine (looks_isAt _).steady.advances fun _ => ?_
  split
  · exact (advances_within _ (advances_block hsub)).bind fun _ => steady_pure _
  · exact (advances_operandAt hsub _ _).bind fun _ => steady_pure _

theorem advances_arrowParameter : Advances room (arrowParameter sub) := by
  refine (advances_operandAt hsub _ _).bind fun parameter parser hr => ?_
  exact ⟨sameSetting_lasting.buffers parser _ _ _, hr.faithful, Nat.lt_succ_self _⟩

omit hsub in
theorem steady_takeParams (mark : Nat) : Steady room (takeParams mark) := by
  intro parser hr
  exact ⟨sameSetting_lasting.buffers parser _ _ _, hr.faithful, Nat.lt_succ_self _⟩

theorem advances_arrowFunction : Advances room (arrowFunction sub) := by
  refine passes_nextToken.steady.advances fun _ => looks_get.steady.advances fun _ => ?_
  refine (advances_closedList _ (advances_arrowParameter hsub)).bind fun _ => ?_
  refine (advances_require _).steady.bind fun _ => (steady_takeParams _).bind fun params => ?_
  exact (advances_arrowBody hsub params).steady

theorem advances_parenthesized : Advances room (parenthesized sub) := by
  refine passes_nextToken.steady.advances fun _ => (looks_isAt _).steady.advances fun _ => ?_
  split
  · exact advances_reject _
  · refine (advances_closedList _ (hsub .operand rfl)).bind fun expressions => ?_
    split
    · exact steady_pure _
    · exact steady_pure _

theorem advances_openingParen {opensArrow : ParserM Bool} (harrow : Steady room opensArrow) :
    Advances room (openingParen opensArrow sub) := by
  refine harrow.advances fun _ => ?_
  split
  · exact advances_arrowFunction hsub
  · exact advances_parenthesized hsub

theorem advances_argumentList (owner : NodeKind) : Advances room (argumentList sub owner) :=
  (advances_require _).bind fun _ =>
    (advances_closedList _ (advances_operandAt hsub _ _)).steady

theorem advances_construction : Advances room (construction sub) := by
  refine passes_nextToken.steady.advances fun _ => (advances_operandAt hsub _ _).bind fun _ => ?_
  refine (looks_isAt _).steady.bind fun _ => ?_
  split
  · exact (advances_argumentList hsub _).steady.bind fun _ => steady_pure _
  · exact steady_pure _

theorem advances_yieldOperand : Advances room (yieldOperand sub) := by
  refine advances_token fun word => ((passes_nextTokenIn _).bind fun following => ?_).movesOn
  split
  · exact steady_pure _
  · exact (advances_operandAt hsub _ _).steady.bind fun _ => steady_pure _

theorem advances_leadingOperator : Advances room (leadingOperator sub) := by
  refine advances_token fun word => Passes.movesOn ?_
  split
  · refine passes_nextToken.bind fun _ => ?_
    split
    · exact (advances_operandAt hsub _ _).steady.bind fun _ => steady_pure _
    · exact (advances_operandAt hsub _ _).steady.bind fun _ => steady_pure _
  · exact passes_reject _

theorem passes_computedAccess (owner : Node) : Passes room (computedAccess sub owner) :=
  passes_nextToken.bind fun _ => (advances_operandAt hsub _ _).steady.bind fun _ =>
    (advances_require _).steady.bind fun _ => steady_pure _

theorem advances_call (callee : Node) : Advances room (call sub callee) :=
  (advances_argumentList hsub _).bind fun _ => steady_pure _

theorem advances_assignment (left : Node) : Advances room (assignment sub left) :=
  advances_token fun _ => (passes_nextToken.bind fun _ =>
    (advances_operandAt hsub _ _).steady.bind fun _ => steady_pure _).movesOn

theorem passes_conditional (test : Node) : Passes room (conditional sub test) :=
  passes_nextToken.bind fun _ => (advances_operandAt hsub _ _).steady.bind fun _ =>
    (advances_require _).steady.bind fun _ => (advances_operandAt hsub _ _).steady.bind fun _ =>
      steady_pure _

theorem passes_arrowFromOperand (parameter : Node) :
    Passes room (arrowFromOperand sub parameter) :=
  passes_nextToken.bind fun _ => (advances_arrowBody hsub _).steady

theorem passes_labeled (label : Node) : Passes room (labeled sub label) :=
  passes_nextToken.bind fun _ => (advances_statementAt hsub _ _).steady.bind fun _ =>
    steady_pure _

end Rules

end ParserM

end ScriptTree
