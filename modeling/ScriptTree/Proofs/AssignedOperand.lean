import ScriptTree.Proofs.ChainGrouping
import ScriptTree.Proofs.ClosedOperand
import ScriptTree.Proofs.NameLists

/-!
The right side of an assignment to a name, in a program that is nothing else.

A parse of such a program that never sees what is behind its text comes to the right side in the same
state, but for the text, as that of the program with more text behind.
-/

namespace ScriptTree

open ParserM

/-- The text of a program that assigns what a text stands for to a name. -/
def assignedSource (target : String) (text : List Char) : String :=
  String.ofList (target.toList ++ ' ' :: '=' :: ' ' :: text)

theorem toList_assignedSource (target : String) (text : List Char) :
    (assignedSource target text).toList = target.toList ++ ' ' :: '=' :: ' ' :: text :=
  String.toList_ofList

/-- The parser inside the right side of an assignment. -/
def Parser.inAssigned (parser : Parser) : Parser :=
  { parser with context := .filling .assignmentExpression .right :: parser.context }

/-- The parser of such a program inside the right side, in front of it. -/
def Parser.inRight (target : String) (text : List Char) (options : ParserOptions) : Parser :=
  (atRight (Parser.started (assignedSource target text) options).inStatement).inAssigned

namespace ParserM

variable {tail : List Char} {parser : Parser} {word : Token} {room : Nat}

theorem built_expressionStatementRest (expression : Node) : Built arrowAhead (do
    if expression.isStatement then pure expression
    else
      let _ ← accept .semicolon
      pure (.expressionStatement expression)) := by
  split
  · exact built_pure _
  · exact .bind (built_elementary.pair.accept .semicolon) fun _ => built_pure _

/-- What no moment of a program sees, none of its first statement does. -/
theorem AllClear.firstStatement {source : String} {options : ParserOptions}
    (fine : AllClear tail (program arrowAhead) (Parser.ofText source options))
    (hd : options.maxDepth = room + 1)
    (hw : (Parser.started source options).lexer.current = some word) :
    (Parser.ofText source options).lexer.Clear tail .default ∧
      AllClear tail (statement (goal arrowAhead room)) (Parser.started source options).inStatement := by
  have hrest (body : List Node) : Built arrowAhead (do
      if (← get).lexer.exhausted then pure (Node.program body) else reject Parser.invalidCharacter) := by
    refine .bind built_get fun after => ?_
    split
    · exact built_pure _
    · exact built_reject invalidCharacter_code
  have hbody : Built arrowAhead (do
      let parser ← get
      let body ← programBody (goal arrowAhead parser.options.maxDepth) parser.budget
      if (← get).lexer.exhausted then pure (Node.program body) else reject Parser.invalidCharacter) :=
    .bind built_get fun parser => .bind (built_programBody _ _) hrest
  have hnext : Built arrowAhead nextToken := built_elementary.nextToken
  refine ⟨(fine.first fun _ => hbody).clear (.next (by simp [ruleModes])), ?_⟩
  have hstarted := (fine.later hnext rfl).later built_get (run_get _)
  let start : Parser := Parser.started source options
  have hprogram : AllClear tail (programBody (goal arrowAhead options.maxDepth) start.budget) start :=
    hstarted.first hrest
  have hstatement : AllClear tail (statementAt (goal arrowAhead (room + 1)) .program .body) start := by
    obtain ⟨rounds, hrounds⟩ : ∃ rounds, start.budget = rounds + 1 := ⟨_, rfl⟩
    rw [hd, hrounds, programBody] at hprogram
    have hbody := AllClear.later hprogram built_elementary.current (run_current start)
    have hcurrent : start.lexer.current = some word := hw
    rw [hcurrent, if_neg (by simp)] at hbody
    exact AllClear.first hbody fun first => .bind (.plain plain_settleOperands) fun _ =>
      .bind (built_programBody _ _) fun _ => built_pure _
  have hdepth : start.context.length < start.options.maxDepth := by
    change 0 < options.maxDepth
    omega
  exact hstatement.inside hdepth

/-- Nor does the expression that its first statement is. -/
theorem AllClear.firstExpression
    (fine : AllClear tail (statement (goal arrowAhead (room + 1))) parser)
    (hw : parser.lexer.current = some word) (hk : word.kind = .identifierName)
    (hd : parser.context.length < parser.options.maxDepth) :
    AllClear tail (freshOperand arrowAhead (goal arrowAhead room)) (inExpression parser) := by
  have hrule := AllClear.later fine built_elementary.token (run_token hw)
  rw [hk] at hrule
  have hstatement : AllClear tail (expressionStatement (goal arrowAhead (room + 1))) parser := hrule
  have hoperand : AllClear tail
      (within (.filling .expressionStatement .expression) (goal arrowAhead (room + 1) .operand)) parser :=
    AllClear.first hstatement built_expressionStatementRest
  rw [within_goal_operand rfl] at hoperand
  exact hoperand.inside hd

section Target

variable {target : String} {text : List Char} {afterOperand : Bool}
  (hn : IsSteadyName target.toList)
  (h : parser.lexer.Facing .default afterOperand (target.toList ++ ' ' :: '=' :: ' ' :: text))
  (hr : 1 < parser.budget) (hd : parser.context.length + 2 < parser.options.maxDepth)
include hn h hr hd

/-- Nor does the right side, if the expression is an assignment to a name; and neither the name nor the
sign is told by what is behind the text. -/
theorem AllClear.rightOperand
    (fine : AllClear tail (freshOperand arrowAhead (goal arrowAhead (room + 1))) (inExpression parser)) :
    parser.lexer.Clear tail .default ∧ (parser.lexer.next .default).Clear tail .default ∧
      AllClear tail (freshOperand arrowAhead (goal arrowAhead room))
        (atRight parser).inAssigned := by
  have hname : parser.lexer.Shows .identifierName none target.toList true (' ' :: '=' :: ' ' :: text) :=
    h.shows (begins_steadyName_of_head hn rfl rfl (by decide) (by decide) _) rfl
      (isUpdateSpelling_name hn.plain.isName)
  obtain ⟨word, hw, hk, hv, -⟩ := hname.token
  have hinside : (inExpression parser).lexer.Facing .default afterOperand _ := h
  have hsign := (run_operand_target (goal arrowAhead (room + 1)) hn hinside rfl hr
    (Nat.lt_of_succ_lt hd)).1
  obtain ⟨sign, hws, hks, -⟩ := hsign.token
  have hnext : Built arrowAhead nextToken := built_elementary.nextToken
  have hreads : LexerMode.default ∈ ruleModes := by simp [ruleModes]
  let inside : Parser := inExpression parser
  let between : Parser := { inside with lexer := inside.lexer.next .default }
  have hfresh : fresh arrowAhead (goal arrowAhead (room + 1)) inside =
      .ok (.identifier target) between := by
    have hword : inside.lexer.current = some word := hw
    simp only [fresh, run_bind, run_token hword, opening, hk, identifier, nextToken, run_modifyLexer,
      run_pure, hv, String.ofList_toList, between]
  have hfirst : inside.lexer.Clear tail .default := by
    have hstart := AllClear.first fine fun first => .bind built_elementary.budget fun rounds =>
      built_extend rounds first
    have hopening := AllClear.later hstart built_elementary.token (run_token hw)
    rw [opening, hk] at hopening
    have hname := AllClear.later hopening built_elementary.token (run_token hw)
    exact (AllClear.first hname fun _ => built_pure _).clear (.next hreads)
  have hassignment : AllClear tail (assignment (goal arrowAhead (room + 1)) (.identifier target))
      { between with context := .extending .identifier :: between.context } := by
    have hextend := (AllClear.later fine (built_fresh _) hfresh).later built_elementary.budget
      (run_budget between)
    obtain ⟨rounds, hrounds⟩ := Nat.exists_eq_succ_of_ne_zero (Nat.ne_zero_of_lt hr)
    have hbudget : between.budget = rounds + 1 := hrounds
    rw [hbudget] at hextend
    have hgo : (!between.context.isComplete (.identifier target) &&
        between.context.admits (.identifier target) sign) = true := by
      have hadmits : between.context.admits (.identifier target) sign = true :=
        admits_assignmentOperator (by decide) hks rfl
      rw [hadmits]
      rfl
    have hover := AllClear.first (AllClear.extension hextend hws hgo) fun longer => built_extend rounds longer
    have hrule := hover.handedOver (Nat.lt_of_succ_lt hd)
    rwa [hks] at hrule
  let side : ParserM Node := do
    let right ← operandAt (goal arrowAhead (room + 1)) .assignmentExpression .right
    pure (.assignment sign.value (.identifier target) right)
  have hbehind : AllClear tail (nextToken >>= fun _ => side)
      { between with context := .extending .identifier :: between.context } := by
    have hrule := AllClear.later hassignment built_elementary.token (run_token hws)
    exact hrule
  have hside : Built arrowAhead side := .bind (built_sub _ .operand rfl) fun _ => built_pure _
  refine ⟨hfirst, (hbehind.first fun _ => hside).clear (.next hreads), ?_⟩
  have hright : AllClear tail side (atRight parser) := by
    have hbehind' := hbehind.later hnext (run_modifyLexer _ _)
    exact hbehind'
  have hoperand := AllClear.first hright fun _ => built_pure _
  rw [operandAt, within_goal_operand rfl] at hoperand
  exact hoperand.inside hd

end Target

/-- Unless the text ends there, a reading that does not see what is behind the text comes to the same with
it. -/
theorem Longer.next_of_current {parser' : Parser} (h : Longer tail parser parser')
    (hclear : parser.lexer.Clear tail .default) (hw : (parser.lexer.next .default).current = some word) :
    Longer tail { parser with lexer := parser.lexer.next .default }
      { parser' with lexer := parser'.lexer.next .default } := by
  refine (h.next hclear.overlooks).resolve_right fun hended => ?_
  rw [hended.current] at hw
  cases hw

/-- Behind a name and the sign of an assignment, the right side begins alike. -/
theorem Longer.atRight {parser' : Parser} {sign : Token} (h : Longer tail parser parser')
    (hname : parser.lexer.Clear tail .default) (hsign : (parser.lexer.next .default).Clear tail .default)
    (hws : (parser.lexer.next .default).current = some sign)
    (hw : (atRight parser).lexer.current = some word) :
    Longer tail (ParserM.atRight parser) (ParserM.atRight parser') := by
  have hbehind := (h.next_of_current hname hws).next_of_current hsign hw
  have hcontext : parser'.context = parser.context := h.context
  rw [ParserM.atRight, ParserM.atRight, hcontext]
  exact hbehind.inContext _

/-- Inside the right side they go on alike. -/
theorem Longer.inAssigned {parser' : Parser} (h : Longer tail parser parser') :
    Longer tail parser.inAssigned parser'.inAssigned := by
  rw [Parser.inAssigned, Parser.inAssigned, h.context]
  exact h.inContext _

/-- What is read inside a construct moves the parser on, and does nothing else to it. -/
theorem moved_of_sub {frame : Frame} {entry : Goal} {node : Node} {after : Parser}
    (hf : frame.isEnclosing = true) (ht : parser.lexer.Truthful)
    (h : within frame (goal arrowAhead room entry) parser = .ok node after) : parser.Moved after := by
  obtain ⟨hoperands, hparams⟩ := (confined_sub room entry hf).keeping h
  have hset := (sameSetting_lasting.sub sameSetting_arrowAhead room entry hf).of_ok h
  have hquiet := quiet_compositional.goal quiet_arrowAhead room entry hf parser ht
  rw [h] at hquiet
  refine ⟨after.lexer, after.arrowAnswers, ?_⟩
  obtain ⟨lexer, context, operands, pendingParams, answers, options, diagnostics, budget⟩ := after
  have hcontext := hset.context
  have hoptions := hset.options
  have hbudget := hset.budget
  have hdiagnostics := hquiet.diagnostics
  subst hoperands hparams hcontext hoptions hbudget hdiagnostics
  rfl

section Programs

variable {target : String} {text : List Char} {options : ParserOptions}

theorem longer_ofText (target : String) (text tail : List Char) (options : ParserOptions) :
    Longer tail (Parser.ofText (assignedSource target text) options)
      (Parser.ofText (assignedSource target (text ++ tail)) options) := by
  have hs : (assignedSource target (text ++ tail)).toList =
      (assignedSource target text).toList ++ tail := by
    simp [toList_assignedSource]
  refine ⟨?_, fun _ => rfl, Parser.ofText_poised _ _, nofun, ?_, rfl, rfl, rfl, rfl⟩
  · change Lexer.ofText _ = (Lexer.ofText _).followedBy tail
    rw [Lexer.ofText_followedBy, hs]
  · change 2 * (assignedSource target text).toList.length + 4 + tail.length ≤
      2 * (assignedSource target (text ++ tail)).toList.length + 4
    rw [hs, List.length_append]
    omega

theorem facing_assignedSource (target : String) (text : List Char) (options : ParserOptions) :
    (Parser.started (assignedSource target text) options).inStatement.lexer.Facing
    .default false (target.toList ++ ' ' :: '=' :: ' ' :: text) :=
  Parser.facing_inStatement (toList_assignedSource target text) options

theorem shows_target (hn : IsSteadyName target.toList) (text : List Char) (options : ParserOptions) :
    (Parser.started (assignedSource target text) options).lexer.Shows .identifierName none target.toList
      true (' ' :: '=' :: ' ' :: text) :=
  Lexer.Facing.shows (facing_assignedSource target text options)
    (begins_steadyName_of_head hn rfl rfl (by decide) (by decide) _) rfl
    (isUpdateSpelling_name hn.plain.isName)

variable (hn : IsSteadyName target.toList) (hd : options.maxDepth = room + 3) (hlimit : 3 < options.maxDepth)
include hn hd hlimit

/-- If no moment of the program sees what is behind its text, then with more text behind the right side
begins in the same state, and no moment of it sees that text either. -/
theorem longer_inRight
    (fine : AllClear tail (program arrowAhead) (Parser.ofText (assignedSource target text) options))
    (hw : (Parser.inRight target text options).lexer.current = some word) :
    Longer tail (Parser.inRight target text options) (Parser.inRight target (text ++ tail) options) ∧
      AllClear tail (freshOperand arrowAhead (goal arrowAhead room))
        (Parser.inRight target text options) := by
  let start : Parser := (Parser.started (assignedSource target text) options).inStatement
  obtain ⟨first, hfirst, hk, -⟩ := (shows_target hn text options).token
  have hface : start.lexer.Facing .default false _ := facing_assignedSource target text options
  have hinside : (inExpression start).lexer.Facing .default false _ := hface
  have hdepth : options.maxDepth = (room + 2) + 1 := hd
  have hbudget : 1 < start.budget := by
    change 1 < 2 * _ + 4
    omega
  obtain ⟨hclear, hstatement⟩ := fine.firstStatement hdepth hfirst
  have hexpression := hstatement.firstExpression hfirst hk (by change 1 < options.maxDepth; omega)
  obtain ⟨hname, hsign, hright⟩ := AllClear.rightOperand hn hface hbudget hlimit hexpression
  obtain ⟨sign, hws, -⟩ := (run_operand_target (goal arrowAhead (room + 1)) hn hinside rfl hbudget (by change 2 < options.maxDepth; omega)).1.token
  refine ⟨?_, hright⟩
  let start' : Parser := (Parser.started (assignedSource target (text ++ tail)) options).inStatement
  have hstart : Longer tail start start' :=
    ((longer_ofText target text tail options).next_of_current hclear hfirst).inContext _
  exact (hstart.atRight hname hsign hws hw).inAssigned

omit hn hd in
/-- What is read behind the sign of the assignment is its right side. -/
theorem leadsTo_right {right : Node} {after : Parser} {afterOperand : Bool} {rest : List Char}
    (h : freshOperand arrowAhead (goal arrowAhead room) (Parser.inRight target text options) =
      .ok right after)
    (hf : after.lexer.Facing .default afterOperand rest) :
    LeadsTo (operandAt (goal arrowAhead (room + 1)) .assignmentExpression .right)
      (atRight (Parser.started (assignedSource target text) options).inStatement) right afterOperand
      rest := by
  let start : Parser := atRight (Parser.started (assignedSource target text) options).inStatement
  have hrun : operandAt (goal arrowAhead (room + 1)) .assignmentExpression .right start =
      .ok right { after with context := after.context.tail } := by
    have hdepth : start.context.length < start.options.maxDepth := hlimit
    have hinside : freshOperand arrowAhead (goal arrowAhead room)
        { start with context := .filling .assignmentExpression .right :: start.context } =
          .ok right after := h
    rw [operandAt, within_goal_operand rfl, run_within hdepth, hinside]
  exact ⟨_, hrun, moved_of_sub rfl (Lexer.next_truthful _ _) hrun, hf⟩

/-- Where the right side is read up to the end of the text, it is assigned to the name. -/
theorem ofSourceWith_of_right {right : Node} {afterOperand : Bool}
    (h : LeadsTo (operandAt (goal arrowAhead (room + 1)) .assignmentExpression .right)
      (atRight (Parser.started (assignedSource target text) options).inStatement) right afterOperand []) :
    Node.ofSourceWith options (assignedSource target text) =
      .ok (.program [.expressionStatement (.assignment "=" (.identifier target) right)]) := by
  obtain ⟨first, hfirst, hk, -⟩ := (shows_target hn text options).token
  have hbudget : 1 < (Parser.started (assignedSource target text) options).inStatement.budget := by
    change 1 < 2 * _ + 4
    omega
  have hassigned := leadsTo_assignment hn (facing_assignedSource target text options) hbudget
    (by change 1 + 1 < options.maxDepth; omega) (fun _ => h) fun _ => current_none_of_nil
  have hdepth : options.maxDepth = (room + 2) + 1 := hd
  exact ofSourceWith_of_oneStatement hdepth hfirst
    (leadsTo_lastExpression hfirst (Or.inl hk) rfl hassigned)

/-- Where the right side ends before a token that neither continues an operand nor ends a statement, the
first statement is the assignment of the right side. -/
theorem eq_of_ofSourceWith_right {right first : Node} {others : List Node} {afterOperand : Bool}
    {rest : List Char}
    (h : LeadsTo (operandAt (goal arrowAhead (room + 1)) .assignmentExpression .right)
      (atRight (Parser.started (assignedSource target text) options).inStatement) right afterOperand rest)
    (hends : ∀ lexer : Lexer, lexer.Facing .default afterOperand rest →
      ∃ word, lexer.current = some word ∧ canExtend word.kind = false ∧ word.kind ≠ .semicolon)
    (hparse : Node.ofSourceWith options (assignedSource target text) = .ok (.program (first :: others))) :
    first = .expressionStatement (.assignment "=" (.identifier target) right) := by
  let start : Parser := (Parser.started (assignedSource target text) options).inStatement
  obtain ⟨word, hfirst, hk, -⟩ := (shows_target hn text options).token
  have hface : start.lexer.Facing .default false _ := facing_assignedSource target text options
  have hbudget : 1 < start.budget := by
    change 1 < 2 * _ + 4
    omega
  obtain ⟨p₁, h₁, m₁, f₁⟩ := leadsTo_assignment hn hface hbudget
    (by change 1 + 1 < options.maxDepth; omega) (fun _ => h) fun lexer hf found hfound => by
      obtain ⟨word, hw, hno, -⟩ := hends lexer hf
      rw [hw] at hfound
      cases hfound
      exact hno
  have haccept : accept .semicolon p₁ = .ok false p₁ := by
    obtain ⟨word, hw, -, hne⟩ := hends p₁.lexer f₁
    have hat : isAt .semicolon p₁ = .ok false p₁ := run_isAt_of_ne hw hne
    simp only [accept, run_bind, hat, Bool.false_eq_true, if_false, run_pure]
  have hstatement : statement (goal arrowAhead (room + 2)) start =
      .ok (.expressionStatement (.assignment "=" (.identifier target) right)) p₁ := by
    have hexpression : statement (goal arrowAhead (room + 2)) start = _ :=
      run_statement_expression hfirst (Or.inl hk)
    have hno : (Node.assignment "=" (.identifier target) right).isStatement = false := rfl
    rw [hexpression]
    simp only [expressionStatement, run_bind, h₁, hno, Bool.false_eq_true, if_false, haccept, run_pure]
  obtain ⟨after, hx⟩ := statementAt_of_ofSourceWith hparse
  obtain ⟨between, hx⟩ := ok_of_within_ok hx
  rw [hd] at hx
  cases hx.symm.trans hstatement
  rfl

end Programs

end ParserM

end ScriptTree
