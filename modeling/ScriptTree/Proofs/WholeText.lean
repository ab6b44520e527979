import ScriptTree.Proofs.BufferDiscipline
import ScriptTree.Proofs.Reading

/-!
From operands to whole programs: expressions as statements, one after the other up to the end of the
text.
-/

namespace ScriptTree

/-- The parser of a text once it has read the first token. -/
def Parser.started (source : String) (options : ParserOptions) : Parser :=
  { ofText source options with lexer := (ofText source options).lexer.next .default }

theorem Parser.facing_started (source : String) (options : ParserOptions) :
    (started source options).lexer.Facing .default false source.toList :=
  ⟨.ofText source.toList, false, rfl, rfl, Lexer.next_eq_nextFrom _ _⟩

theorem Parser.before_started {source : String} (options : ParserOptions)
    (h : ArrowFree source.toList) : (started source options).Before false source.toList where
  facing := facing_started source options
  answers := nofun
  arrowFree := h
  budget := by
    change source.toList.length < 2 * source.toList.length + 4
    omega

namespace ParserM

theorem run_statement_of_atExpression {sub : Goal → ParserM Node} {parser : Parser}
    (h : parser.AtExpression) : statement sub parser = expressionStatement sub parser := by
  obtain ⟨kind, _, _, _, hon, hk⟩ := h
  obtain ⟨word, ht, -, hw, -⟩ := run_token_of_on hon
  rw [statement, run_bind, ht]
  dsimp only
  rw [hw]
  -- of the tokens that start a statement of their own, none starts an expression
  cases kind <;> first | rfl | cases hk

theorem ofSourceWith_of_programBody {source : String} {options : ParserOptions} {after : Parser}
    {body : List Node}
    (h : programBody (goal arrowAhead options.maxDepth) (Parser.started source options).budget
      (Parser.started source options) = .ok body after)
    (hx : after.lexer.exhausted = true) : Node.ofSourceWith options source = .ok (.program body) := by
  have hp : program arrowAhead (Parser.ofText source options) = .ok (.program body) after := by
    have hb : programBody (goal arrowAhead (Parser.ofText source options).options.maxDepth)
        (Parser.ofText source options).budget
        { Parser.ofText source options with
          lexer := (Parser.ofText source options).lexer.next .default } = .ok body after := h
    simp only [program, nextToken, run_bind, run_modifyLexer, run_get, hb, hx, if_true, run_pure]
  rw [Node.ofSourceWith, Parser.run, hp]

/-- An expression is read as a statement, with its semicolon if there is one. -/
theorem arrives_expressionStatement {sub : Goal → ParserM Node} {parser : Parser} {node : Node}
    {text rest : List Char} (hn : node.isStatement = false)
    (h : Arrives (operandAt sub .expressionStatement .expression) parser node true text)
    (ht : text = ';' :: rest ∨ text = [] ∧ rest = []) :
    ∃ afterOperand, Arrives (expressionStatement sub) parser (.expressionStatement node)
      afterOperand rest := by
  obtain ⟨between, hx, hm, hb⟩ := h
  rcases ht with rfl | ⟨rfl, rfl⟩
  · have hon : between.On .semicolon none [';'] rest := hb.on_mark (by decide)
    obtain ⟨after, ha, hm', hb'⟩ := arrives_accept hon
    refine ⟨false, after, ?_, hm.trans hm', hb'⟩
    simp only [expressionStatement, run_bind, hx, hn, Bool.false_eq_true, if_false, ha, run_pure]
  · refine ⟨true, between, ?_, hm, hb⟩
    have ha : accept .semicolon between = .ok false between := by
      simp only [accept, isAt, run_bind, run_current, hb.facing.current_nil.1, Option.any_none,
        run_pure, Bool.false_eq_true, if_false]
    simp only [expressionStatement, run_bind, hx, hn, Bool.false_eq_true, if_false, ha, run_pure]

theorem arrives_statementAt {room : Nat} {parser : Parser} {node : Node} {text rest : List Char}
    (he : parser.AtExpression) (hn : node.isStatement = false)
    (h : Arrives (operandAt (goal arrowAhead room) .expressionStatement .expression)
      { parser with context := .filling .program .body :: parser.context } node true text)
    (ht : text = ';' :: rest ∨ text = [] ∧ rest = [])
    (hd : parser.context.length < parser.options.maxDepth) :
    ∃ afterOperand, Arrives (statementAt (goal arrowAhead (room + 1)) .program .body) parser
      (.expressionStatement node) afterOperand rest := by
  obtain ⟨afterOperand, hs⟩ := arrives_expressionStatement hn h ht
  refine ⟨afterOperand, Arrives.within (hs.of_eq ?_) hd⟩
  exact run_statement_of_atExpression (he.enter _)

/-- The statements of a program, one at a time. -/
theorem run_programBody_of_statement {parser after : Parser} {first : Node} {rounds : Nat}
    {sub : Goal → ParserM Node} {word : Token} (hw : parser.lexer.current = some word)
    (h : statementAt sub .program .body parser = .ok first after) (hm : parser.Moved after)
    (ho : parser.operands = []) :
    programBody sub (rounds + 1) parser = match programBody sub rounds after with
      | .ok others after => .ok (first :: others) after
      | .error failure after => .error failure after := by
  have hs : settleOperands after = .ok () after := run_settleOperands (hm.operands.trans ho)
  simp only [programBody, run_bind, run_current, hw, Option.isNone_some, Bool.false_eq_true,
    if_false, h, hs, run_pure]
  cases programBody sub rounds after <;> rfl

theorem run_programBody_nil {parser : Parser} {sub : Goal → ParserM Node} {rounds : Nat}
    {afterOperand : Bool} (h : parser.lexer.Facing .default afterOperand []) :
    programBody sub (rounds + 1) parser = .ok [] parser := by
  simp only [programBody, run_bind, run_current, h.current_nil.1, Option.isNone_none, if_true,
    run_pure]

end ParserM

end ScriptTree
