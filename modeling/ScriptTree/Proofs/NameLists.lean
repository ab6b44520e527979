import ScriptTree.Proofs.FormulaLists
import ScriptTree.Proofs.MemberForms

/-!
Objects of names at the end of a text: one that is assigned to a name, and one in parentheses to which
a name is assigned.
-/

namespace ScriptTree

namespace ParserM

variable {parser : Parser} {afterOperand : Bool} {rest text : List Char}

/-- Where no arrow follows, a parenthesis is one around an operand. -/
theorem run_fresh_paren {sub : Goal → ParserM Node} (hon : parser.On .openParen none ['('] text) :
    ∃ between, parser.Moved between ∧ between.On .openParen none ['('] text ∧
      fresh arrowAhead sub parser = parenthesized sub between := by
  obtain ⟨word, ht, -, hk, -⟩ := run_token_of_on hon
  obtain ⟨answers, ha, hanswers⟩ := run_arrowAhead_of_arrowFree hon.answers
    (hon.shows.rest.symm ▸ hon.arrowFree)
  refine ⟨{ parser with arrowAnswers := answers }, ⟨_, _, rfl⟩,
    ⟨hon.shows, hanswers, hon.arrowFree, hon.budget⟩, ?_⟩
  simp only [fresh, run_bind, ht, opening, hk, openingParen, ha, Bool.false_eq_true, if_false]

/-- What is in parentheses, from behind the opening one on. -/
def insideParens (sub : Goal → ParserM Node) : ParserM Node := do
  if ← isAt .closeParen then reject fun parser => parser.complaint .emptyParentheses
  else
    match ← closedList .closeParen (within .parentheses (sub .operand)) with
    | [expression] => pure expression
    | expressions => pure (.sequence expressions)

theorem parenthesized_eq (sub : Goal → ParserM Node) :
    parenthesized sub = (nextToken >>= fun _ => insideParens sub) := rfl

section Inside

variable {sub : Goal → ParserM Node} (hb : 0 < parser.budget)
  (hat : isAt .closeParen parser = .ok false parser)
include hb hat

/-- One operand up to the closing parenthesis, which is stepped over. -/
theorem run_insideParens {node : Node} {after : Parser}
    (h : within .parentheses (sub .operand) parser = .ok node after)
    (hs : after.lexer.Shows .closeParen none [')'] true rest) :
    insideParens sub parser = .ok node { after with lexer := after.lexer.next .default } := by
  have hno := run_accept_of_shows_ne hs .comma (by decide)
  have hclose := run_isAt_of_shows hs .closeParen
  obtain ⟨rounds, hrounds⟩ := Nat.exists_eq_succ_of_ne_zero (Nat.pos_iff_ne_zero.mp hb)
  simp only [insideParens, closedList, commaList, require, nextToken, run_bind, hat, run_budget, hrounds,
    Bool.false_eq_true, if_false, h, hno, hclose, beq_self_eq_true, if_true, run_modifyLexer, run_pure]

theorem run_insideParens_error {failure : Failure} {after : Parser}
    (h : within .parentheses (sub .operand) parser = .error failure after) :
    insideParens sub parser = .error failure after := by
  obtain ⟨rounds, hrounds⟩ := Nat.exists_eq_succ_of_ne_zero (Nat.pos_iff_ne_zero.mp hb)
  simp only [insideParens, closedList, commaList, run_bind, hat, run_budget, hrounds,
    Bool.false_eq_true, if_false, h]

end Inside

section Parens

variable {sub : Goal → ParserM Node} (hs : parser.lexer.Shows .openParen none ['('] false text)
  (hb : 0 < parser.budget)
include hs hb

/-- One operand in parentheses. -/
theorem leadsTo_parenthesized {node : Node}
    (hitem : ∀ between, parser.Moved between → between.lexer.Facing .default false text →
      isAt .closeParen between = .ok false between ∧
        LeadsTo (within .parentheses (sub .operand)) between node true (')' :: rest)) :
    LeadsTo (parenthesized sub) parser node true rest := by
  obtain ⟨p₁, h₁, m₁, f₁⟩ := leadsTo_nextToken hs
  obtain ⟨hat, p₂, h₂, m₂, f₂⟩ := hitem p₁ m₁ f₁
  have hclose := f₂.shows_mark .closeParen (by decide)
  have hnext : p₂.Moved { p₂ with lexer := p₂.lexer.next .default } := ⟨_, _, rfl⟩
  refine ⟨_, ?_, (m₁.trans m₂).trans hnext, hclose.next .default⟩
  rw [parenthesized_eq, run_bind, h₁]
  exact run_insideParens (by rw [m₁.budget]; exact hb) hat h₂ hclose

theorem fails_parenthesized
    (hitem : ∀ between, parser.Moved between → between.lexer.Facing .default false text →
      isAt .closeParen between = .ok false between ∧
        Fails (within .parentheses (sub .operand)) between) :
    Fails (parenthesized sub) parser := by
  obtain ⟨p₁, h₁, m₁, f₁⟩ := leadsTo_nextToken hs
  obtain ⟨hat, failure, after, hx⟩ := hitem p₁ m₁ f₁
  refine ⟨failure, after, ?_⟩
  rw [parenthesized_eq, run_bind, h₁]
  exact run_insideParens_error (by rw [m₁.budget]; exact hb) hat hx

end Parens

theorem run_statement_expression {sub : Goal → ParserM Node} {word : Token}
    (hw : parser.lexer.current = some word) (hk : word.kind = .identifierName ∨ word.kind = .openParen) :
    statement sub parser = expressionStatement sub parser := by
  rcases hk with hk | hk <;> simp only [statement, run_bind, run_token hw, hk]

/-- An expression that is all of the text is a statement without a semicolon. -/
theorem leadsTo_expressionStatement {sub : Goal → ParserM Node} {node : Node} (hn : node.isStatement = false)
    (h : LeadsTo (operandAt sub .expressionStatement .expression) parser node afterOperand []) :
    LeadsTo (expressionStatement sub) parser (.expressionStatement node) afterOperand [] := by
  obtain ⟨p₁, h₁, m₁, f₁⟩ := h
  refine ⟨p₁, ?_, m₁, f₁⟩
  simp only [expressionStatement, run_bind, h₁, hn, Bool.false_eq_true, if_false,
    run_accept_of_none .semicolon f₁.current_nil.1, run_pure]

theorem leadsTo_lastExpression {sub : Goal → ParserM Node} {node : Node} {word : Token}
    (hw : parser.lexer.current = some word) (hk : word.kind = .identifierName ∨ word.kind = .openParen)
    (hn : node.isStatement = false)
    (h : LeadsTo (operandAt sub .expressionStatement .expression) parser node afterOperand []) :
    LeadsTo (statement sub) parser (.expressionStatement node) afterOperand [] :=
  (leadsTo_expressionStatement hn h).of_eq (run_statement_expression hw hk)

theorem current_none_of_nil {lexer : Lexer} (h : lexer.Facing .default afterOperand []) :
    ∀ word ∈ lexer.current, canExtend word.kind = false := by
  intro word hw
  rw [h.current_nil.1] at hw
  cases hw

/-- What starts an operand is all of it at the end of the text. -/
theorem leadsTo_lastOperand {node : Node} {frame : Frame} {room : Nat}
    (h : LeadsTo (fresh arrowAhead (goal arrowAhead room))
      { parser with context := frame :: parser.context } node afterOperand [])
    (hf : frame.isEnclosing = true) (hb : 0 < parser.budget)
    (hd : parser.context.length < parser.options.maxDepth) :
    LeadsTo (within frame (goal arrowAhead (room + 1) .operand)) parser node afterOperand [] := by
  obtain ⟨p₁, h₁, m₁, f₁⟩ := operand_of_fresh (isExtending_of_isEnclosing hf) h
  have hstops : extend arrowAhead (goal arrowAhead room) node parser.budget p₁ = .ok node p₁ :=
    extend_stops (current_none_of_nil f₁) hb
  exact Leads.within ⟨p₁, h₁.trans hstops, m₁, f₁⟩ (fun _ _ hf => hf) hd

section Objects

variable {members : List NameMember} {comma : Bool} {target value : String}

theorem head?_namesText (members : List NameMember) (comma : Bool) (rest : List Char) :
    ∀ c ∈ (namesText members comma ++ rest).head?, isSpace c = false := by
  rintro _ ⟨⟩
  rfl

/-- An expression that starts with an object of names starts with a brace. -/
theorem exists_word_names (h : parser.lexer.Facing .default afterOperand (namesText members comma ++ rest)) :
    ∃ word, parser.lexer.current = some word ∧ word.kind = .openBrace := by
  have h' : parser.lexer.Facing .default afterOperand
      ('\x7b' :: (listText NameMember.text comma members ++ '\x7d' :: rest)) := by
    simpa [namesText] using h
  obtain ⟨word, hw, hk, -⟩ := (h'.shows_brace .openBrace (by decide)).token
  exact ⟨word, hw, hk⟩

/-- An object of names that is assigned to a name, at the end of the text. -/
theorem leadsTo_assignedObject (ht : IsSteadyName target.toList)
    (hp : ∀ member ∈ members, member.IsPlain) (hn : ∀ member ∈ members, member.IsSteady)
    (h : parser.lexer.Facing .default afterOperand
      (target.toList ++ ' ' :: '=' :: ' ' :: namesText members comma)) (room : Nat)
    (hr : members.length + 1 < parser.budget)
    (hd : parser.context.length + 6 < parser.options.maxDepth) :
    LeadsTo (operandAt (goal arrowAhead (room + 4)) .expressionStatement .expression) parser
      (.assignment "=" (.identifier target) (.object .expression (members.map NameMember.node)))
      false [] := by
  have hhead := head?_namesText members comma []
  rw [List.append_nil] at hhead
  refine leadsTo_assignment ht h (by omega) (by omega) (fun hface => ?_)
    fun _ => current_none_of_nil
  let inside : Parser :=
    { atRight parser with context := .filling .assignmentExpression .right :: (atRight parser).context }
  have hf : inside.lexer.Facing .default false (namesText members comma ++ []) := by
    rw [List.append_nil]
    exact hface.skip (Or.inl rfl) hhead
  obtain ⟨word, hw, hk⟩ := exists_word_names hf
  have hbudget : members.length + 1 < inside.budget := hr
  have hdepth : inside.context.length + 3 < inside.options.maxDepth := hd
  have hfresh := (leadsTo_nameObject hp hn rfl hf room hbudget hdepth).of_eq (run_fresh_brace hw hk rfl)
  exact leadsTo_lastOperand hfresh rfl (Nat.zero_lt_of_lt hbudget)
    (by rw [atRight_depth, atRight_options]; omega)

theorem fails_assignedObject (ht : IsSteadyName target.toList)
    (hp : ∀ member ∈ members, member.IsPlain) (hn : ∃ member ∈ members, ¬member.IsSteady)
    (h : parser.lexer.Facing .default afterOperand
      (target.toList ++ ' ' :: '=' :: ' ' :: namesText members comma)) (room : Nat)
    (hr : 1 < parser.budget) (hd : parser.context.length + 6 < parser.options.maxDepth) :
    Fails (operandAt (goal arrowAhead (room + 4)) .expressionStatement .expression) parser := by
  have hhead := head?_namesText members comma []
  rw [List.append_nil] at hhead
  refine fails_assignment ht h hr (by omega) fun hface => ?_
  let inside : Parser :=
    { atRight parser with context := .filling .assignmentExpression .right :: (atRight parser).context }
  have hf : inside.lexer.Facing .default false (namesText members comma ++ []) := by
    rw [List.append_nil]
    exact hface.skip (Or.inl rfl) hhead
  obtain ⟨word, hw, hk⟩ := exists_word_names hf
  have hfresh : Fails (fresh arrowAhead (goal arrowAhead (room + 2))) inside := by
    refine Fails.of_eq ?_ (run_fresh_brace hw hk rfl)
    have hdepth : inside.context.length + 3 < inside.options.maxDepth := hd
    exact fails_nameObject hp hn rfl hf room hr hdepth
  exact Fails.within (hfresh.operand rfl)

/-- A parser inside parentheses. -/
def inParens (parser : Parser) : Parser := { parser with context := .parentheses :: parser.context }

/-- In parentheses, an operand may start with an object of names. -/
theorem run_fresh_names {sub : Goal → ParserM Node}
    (h : parser.lexer.Facing .default afterOperand (namesText members comma ++ rest)) :
    fresh arrowAhead sub (inParens parser) = object sub (inParens parser) := by
  obtain ⟨word, hw, hk⟩ := exists_word_names h
  exact run_fresh_brace hw hk rfl

theorem not_closeParen_names
    (h : parser.lexer.Facing .default afterOperand (namesText members comma ++ rest)) :
    isAt .closeParen parser = .ok false parser := by
  obtain ⟨word, hw, hk⟩ := exists_word_names h
  apply run_isAt_of_ne hw
  rw [hk]
  decide

/-- In parentheses, a name is assigned to an object of names. -/
theorem leadsTo_patternInParens (hv : IsSteadyName value.toList)
    (hp : ∀ member ∈ members, member.IsPlain) (hn : ∀ member ∈ members, member.IsSteady)
    (h : parser.lexer.Facing .default afterOperand
      (namesText members comma ++ ' ' :: '=' :: ' ' :: (value.toList ++ ')' :: rest))) (room : Nat)
    (hr : members.length + 1 < parser.budget)
    (hd : parser.context.length + 4 < parser.options.maxDepth) :
    LeadsTo (within .parentheses (goal arrowAhead (room + 3) .operand)) parser
      (.assignment "=" (.object .expression (members.map NameMember.node)) (.identifier value)) true
      (')' :: rest) := by
  have hinside : (inParens parser).lexer.Facing .default afterOperand
      (namesText members comma ++ ' ' :: '=' :: ' ' :: (value.toList ++ ')' :: rest)) := h
  have hbudget : members.length + 1 < (inParens parser).budget := hr
  have hdepth : (inParens parser).context.length + 3 < (inParens parser).options.maxDepth := by
    change parser.context.length + 1 + 3 < parser.options.maxDepth
    omega
  have hfresh : LeadsTo (fresh arrowAhead (goal arrowAhead (room + 2))) (inParens parser)
      (.object .expression (members.map NameMember.node)) false
      (' ' :: '=' :: ' ' :: (value.toList ++ ')' :: rest)) :=
    (leadsTo_nameObject hp hn rfl hinside room hbudget hdepth).of_eq (run_fresh_names h)
  have hbegins : Begins .default false .identifierName none value.toList (')' :: rest) :=
    begins_steadyName hv (.mark (by decide)) false
  have hassigned : LeadsTo (operand arrowAhead (goal arrowAhead (room + 2))) (inParens parser)
      (.assignment "=" (.object .expression (members.map NameMember.node)) (.identifier value)) true
      (')' :: rest) :=
    leadsTo_assignedName hfresh rfl rfl rfl (by decide) rfl hv.plain.isName hbegins (halts_close rest)
      (halts_close rest) (by omega) (by omega)
  exact Leads.within hassigned (fun _ _ hf => hf) (by omega)

theorem fails_patternInParens (hp : ∀ member ∈ members, member.IsPlain)
    (hn : ∃ member ∈ members, ¬member.IsSteady)
    (h : parser.lexer.Facing .default afterOperand (namesText members comma ++ rest)) (room : Nat)
    (hr : 1 < parser.budget) (hd : parser.context.length + 4 < parser.options.maxDepth) :
    Fails (within .parentheses (goal arrowAhead (room + 3) .operand)) parser := by
  have hinside : (inParens parser).lexer.Facing .default afterOperand
      (namesText members comma ++ rest) := h
  have hdepth : (inParens parser).context.length + 3 < (inParens parser).options.maxDepth := by
    change parser.context.length + 1 + 3 < parser.options.maxDepth
    omega
  have hfresh : Fails (fresh arrowAhead (goal arrowAhead (room + 2))) (inParens parser) :=
    (fails_nameObject hp hn rfl hinside room hr hdepth).of_eq (run_fresh_names h)
  have hoperand : Fails (goal arrowAhead (room + 3) .operand) (inParens parser) := hfresh.operand rfl
  exact Fails.within hoperand

/-- A parser inside an expression that is a statement. -/
def inExpression (parser : Parser) : Parser :=
  { parser with context := .filling .expressionStatement .expression :: parser.context }

/-- An expression that starts with a parenthesis in front of no arrow is what is in parentheses. -/
theorem exists_parenthesized {sub : Goal → ParserM Node} (hon : parser.On .openParen none ['('] text) :
    ∃ between, (inExpression parser).Moved between ∧
      between.lexer.Shows .openParen none ['('] false text ∧
      fresh arrowAhead sub (inExpression parser) = parenthesized sub between := by
  have hon' : (inExpression parser).On .openParen none ['('] text := hon.enter _
  obtain ⟨between, hm, hon'', hx⟩ := run_fresh_paren hon'
  exact ⟨between, hm, hon''.shows, hx⟩

/-- An object of names, in parentheses, to which a name is assigned, at the end of the text. -/
theorem leadsTo_assignedPattern (hv : IsSteadyName value.toList)
    (hp : ∀ member ∈ members, member.IsPlain) (hn : ∀ member ∈ members, member.IsSteady)
    (hon : parser.On .openParen none ['(']
      (namesText members comma ++ ' ' :: '=' :: ' ' :: (value.toList ++ [')']))) (room : Nat)
    (hr : members.length + 1 < parser.budget)
    (hd : parser.context.length + 5 < parser.options.maxDepth) :
    LeadsTo (operandAt (goal arrowAhead (room + 4)) .expressionStatement .expression) parser
      (.assignment "=" (.object .expression (members.map NameMember.node)) (.identifier value))
      true [] := by
  obtain ⟨p₁, m₁, hs, hx⟩ := exists_parenthesized hon
  have hbudget : members.length + 1 < p₁.budget := by
    rw [m₁.budget]
    exact hr
  have hdepth : p₁.context.length + 4 < p₁.options.maxDepth := by
    rw [m₁.context, m₁.options]
    change parser.context.length + 1 + 4 < parser.options.maxDepth
    omega
  obtain ⟨p₂, h₂, m₂, f₂⟩ := leadsTo_parenthesized hs (Nat.zero_lt_of_lt hbudget) fun between m f =>
    ⟨not_closeParen_names f, leadsTo_patternInParens hv hp hn f room (by rw [m.budget]; exact hbudget)
      (by rw [m.context, m.options]; exact hdepth)⟩
  have hfresh : LeadsTo (fresh arrowAhead (goal arrowAhead (room + 3))) (inExpression parser)
      (.assignment "=" (.object .expression (members.map NameMember.node)) (.identifier value)) true [] :=
    ⟨p₂, hx.trans h₂, m₁.trans m₂, f₂⟩
  exact leadsTo_lastOperand hfresh rfl (Nat.zero_lt_of_lt hr) (by omega)

theorem fails_assignedPattern (hp : ∀ member ∈ members, member.IsPlain)
    (hn : ∃ member ∈ members, ¬member.IsSteady)
    (hon : parser.On .openParen none ['('] (namesText members comma ++ rest)) (room : Nat)
    (hr : 1 < parser.budget) (hd : parser.context.length + 5 < parser.options.maxDepth) :
    Fails (operandAt (goal arrowAhead (room + 4)) .expressionStatement .expression) parser := by
  obtain ⟨p₁, m₁, hs, hx⟩ := exists_parenthesized hon
  have hbudget : 1 < p₁.budget := by
    rw [m₁.budget]
    exact hr
  have hdepth : p₁.context.length + 4 < p₁.options.maxDepth := by
    rw [m₁.context, m₁.options]
    change parser.context.length + 1 + 4 < parser.options.maxDepth
    omega
  have hparens : Fails (parenthesized (goal arrowAhead (room + 3))) p₁ :=
    fails_parenthesized hs (Nat.zero_lt_of_lt hbudget) fun between m f =>
      ⟨not_closeParen_names f, fails_patternInParens hp hn f room (by rw [m.budget]; exact hbudget)
        (by rw [m.context, m.options]; exact hdepth)⟩
  have hfresh : Fails (fresh arrowAhead (goal arrowAhead (room + 3))) (inExpression parser) := by
    rw [Fails, hx]
    exact hparens
  have hoperand : Fails (goal arrowAhead (room + 4) .operand) (inExpression parser) := hfresh.operand rfl
  exact Fails.within hoperand

end Objects

end ParserM

end ScriptTree
