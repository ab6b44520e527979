import ScriptTree.Proofs.QuietSteps

/-!
The buffers of a parse as its callers see them.

Every entry into the grammar leaves the buffers as they are, and a rule that extends an operand finds
the operand put aside for it. So a program that is read from the beginning of a text never has
operands left over, and what becomes of such operands does not matter to it.
-/

namespace ScriptTree

namespace ParserM

variable {α : Type}

/-- From a state, a step does the same whatever lies below in the buffers, and if it succeeds it
leaves them as they are. -/
def ConfinedAt (m : ParserM α) (parser : Parser) : Prop :=
  (∀ ground, m (parser.over ground) = resultOver ground (m parser)) ∧
    ∀ a after, m parser = .ok a after → SameBuffers parser after

theorem Confined.confinedAt {m : ParserM α} (h : Confined m) (parser : Parser) :
    ConfinedAt m parser :=
  ⟨h.framed parser, fun _ _ hm => h.keeping hm⟩

theorem Confined.confinedAt_of_eq {m m' : ParserM α} {parser : Parser} (h : Confined m')
    (he : ∀ ground, m (parser.over ground) = m' (parser.over ground))
    (he' : m parser = m' parser) : ConfinedAt m parser := by
  refine ⟨fun ground => ?_, fun a after hm => ?_⟩
  · rw [he ground, he', h.framed parser ground]
  · exact h.keeping (he' ▸ hm)

section Entries

variable (room : Nat)

theorem confined_sub {frame : Frame} (entry : Goal) (hf : frame.isEnclosing = true) :
    Confined (within frame (goal arrowAhead room entry)) :=
  confined_compositional.goal confined_arrowAhead room entry hf

theorem confinedAt_node {parser : Parser} (he : parser.context.isExtending = false) :
    ConfinedAt (node arrowAhead (goal arrowAhead room)) parser :=
  (confined_compositional.fresh (confined_sub room) confined_arrowAhead).confinedAt_of_eq
    (fun _ => node_of_not_extending he) (node_of_not_extending he)

theorem confinedAt_operand {parser : Parser} (he : parser.context.isExtending = false) :
    ConfinedAt (operand arrowAhead (goal arrowAhead room)) parser :=
  (confined_compositional.freshOperand (confined_sub room) confined_arrowAhead).confinedAt_of_eq
    (fun _ => operand_of_not_extending he) (operand_of_not_extending he)

theorem confined_statement : Confined (statement (goal arrowAhead room)) :=
  confined_compositional.statement (confined_sub room)

theorem confined_extension (kind : TokenKind) (operand : Node) :
    Confined (extension (goal arrowAhead room) kind operand) :=
  confined_compositional.extension (confined_sub room) kind operand

end Entries

/-- The state in which an operand has just been put aside and its extension entered, on top of other
operands, at a token that continues it. -/
structure HandedOver (operand : Node) (operands : List Node) (word : Token) (parser : Parser) :
    Prop where
  current : parser.lexer.current = some word
  entered : ∃ context : Context,
    parser.context = .extending operand.kind :: context ∧ context.admits operand word = true
  operands : parser.operands = operand :: operands

/-- An extension takes up the operand that was put aside for it, and that one only. -/
theorem node_of_handedOver {opensArrow : ParserM Bool} {sub : Goal → ParserM Node} {operand : Node}
    {operands : List Node} {word : Token} {parser : Parser}
    (h : HandedOver operand operands word parser) :
    node opensArrow sub parser = extension sub word.kind operand { parser with operands } := by
  obtain ⟨context, hc, ha⟩ := h.entered
  have he : parser.context.isExtending = true := by rw [hc]; rfl
  rw [node_extending h.current he (canExtend_of_admits ha), run_bind, run_takeOperand h.operands]

theorem run_settleOperands {parser : Parser} (h : parser.operands = []) :
    settleOperands parser = .ok () parser := by
  simp only [settleOperands, run_bind, run_get, h, List.isEmpty_nil, if_true, run_pure]

/-- One statement of a program, begun with no operands put aside, leaves none, so nothing is done
about them. -/
theorem run_programBody_succ {sub : Goal → ParserM Node} {rounds : Nat} {parser : Parser}
    (hs : Leading SameBuffers (statementAt sub .program .body)) (h : parser.operands = []) :
    programBody sub (rounds + 1) parser = (do
      if (← current).isNone then pure []
      else
        let first ← statementAt sub .program .body
        let others ← programBody sub rounds
        pure (first :: others)) parser := by
  simp only [programBody, run_bind, run_current]
  split
  · rfl
  -- the statement leaves the operands as they are, so there are none to settle
  · rw [run_bind, run_bind]
    cases hr : statementAt sub .program .body parser with
    | error failure between => rfl
    | ok first between =>
      have ho : between.operands = [] := (hs hr).1.trans h
      simp only [run_bind, run_settleOperands ho]

/-- What lies below the parameters, and how operands left over are treated, has no influence on the
statements of a program. -/
theorem programBody_over {sub : Goal → ParserM Node}
    (hs : Confined (statementAt sub .program .body)) {ground : Ground}
    (hg : ground.operands = []) (rounds : Nat) (parser : Parser) (h : parser.operands = []) :
    programBody sub rounds (parser.over ground) =
      resultOver ground (programBody sub rounds parser) := by
  induction rounds generalizing parser with
  | zero => rfl
  | succ rounds ih =>
    have ho : (parser.over ground).operands = [] := by simp [Parser.over, h, hg]
    have hc : (parser.over ground).lexer.current = parser.lexer.current := rfl
    -- both programs go on or stop together, since the current token is the same
    rw [run_programBody_succ hs.keeping h, run_programBody_succ hs.keeping ho]
    simp only [run_bind, run_current, hc]
    split
    · rfl
    · simp only [run_bind, hs.framed parser ground]
      cases hr : statementAt sub .program .body parser with
      | error failure between => rfl
      | ok first between =>
        simp only [resultOver]
        rw [ih between ((hs.keeping hr).1.trans h)]
        cases programBody sub rounds between <;> rfl

theorem programBody_quiet {sub : Goal → ParserM Node}
    (hs : Confined (statementAt sub .program .body)) (hq : Quiet (statementAt sub .program .body))
    (rounds : Nat) {parser : Parser} (h : parser.operands = []) (ht : parser.lexer.Truthful) :
    QuietEnd parser (programBody sub rounds parser) := by
  induction rounds generalizing parser with
  | zero => exact ⟨.refl ht, trivial⟩
  | succ rounds ih =>
    rw [run_programBody_succ hs.keeping h]
    simp only [run_bind, run_current]
    split
    · exact .refl ht
    · have hf := hq parser ht
      simp only [run_bind]
      cases hr : statementAt sub .program .body parser with
      | error failure between =>
        rw [hr] at hf
        exact hf
      | ok first between =>
        rw [hr] at hf
        -- the rest of the program starts without operands as well
        have hb := ih ((hs.keeping hr).1.trans h) hf.truthful
        dsimp only
        cases ho : programBody sub rounds between with
        | error failure after =>
          rw [ho] at hb
          exact hb.of_undisturbed hf
        | ok others after =>
          rw [ho] at hb
          exact hb.of_undisturbed hf

theorem confined_statementAt (room : Nat) (kind : NodeKind) (slot : Slot) :
    Confined (statementAt (goal arrowAhead room) kind slot) :=
  confined_sub room .statement rfl

theorem quiet_statementAt (room : Nat) (kind : NodeKind) (slot : Slot) :
    Quiet (statementAt (goal arrowAhead room) kind slot) :=
  quiet_compositional.goal quiet_arrowAhead room .statement rfl

/-- A program begun with no operands put aside is read the same way whatever is done about operands
left over. -/
theorem program_over {parser : Parser} {ground : Ground} (h : parser.operands = [])
    (hg : ground.operands = []) :
    program arrowAhead (parser.over ground) = resultOver ground (program arrowAhead parser) := by
  have hb : programBody (goal arrowAhead (parser.over ground).options.maxDepth)
        (parser.over ground).budget
        { parser.over ground with lexer := (parser.over ground).lexer.next .default } =
      resultOver ground (programBody (goal arrowAhead parser.options.maxDepth) parser.budget
        { parser with lexer := parser.lexer.next .default }) :=
    programBody_over (confined_statementAt parser.options.maxDepth .program .body) hg parser.budget
      { parser with lexer := parser.lexer.next .default } h
  simp only [program, nextToken, run_bind, run_modifyLexer, run_get, hb]
  cases programBody (goal arrowAhead parser.options.maxDepth) parser.budget
      { parser with lexer := parser.lexer.next .default } with
  | error failure after => rfl
  | ok body after =>
    have hx : (after.over ground).lexer.exhausted = after.lexer.exhausted := rfl
    simp only [resultOver, hx]
    split <;> rfl

theorem program_quiet {parser : Parser} (h : parser.operands = []) :
    QuietEnd parser (program arrowAhead parser) := by
  have hb := programBody_quiet (confined_statementAt parser.options.maxDepth .program .body)
    (quiet_statementAt parser.options.maxDepth .program .body) parser.budget
    (h : { parser with lexer := parser.lexer.next .default }.operands = [])
    (Lexer.next_truthful _ _)
  simp only [program, nextToken, run_bind, run_modifyLexer, run_get]
  cases hr : programBody (goal arrowAhead parser.options.maxDepth) parser.budget
      { parser with lexer := parser.lexer.next .default } with
  | error failure after =>
    rw [hr] at hb
    exact ⟨⟨hb.1.diagnostics, hb.1.budget, hb.1.truthful⟩, hb.2⟩
  | ok body after =>
    rw [hr] at hb
    dsimp only
    split
    · exact ⟨hb.diagnostics, hb.budget, hb.truthful⟩
    · exact ⟨⟨hb.diagnostics, hb.budget, hb.truthful⟩, spares_of_code (invalidCharacter_code after)⟩

theorem exhausted_of_program {parser after : Parser} {tree : Node}
    (h : program arrowAhead parser = .ok tree after) : after.lexer.exhausted = true := by
  obtain ⟨_, p₁, -, h⟩ := ok_of_bind_ok h
  obtain ⟨p₂, _, -, h⟩ := ok_of_bind_ok h
  obtain ⟨body, p₃, -, h⟩ := ok_of_bind_ok h
  simp only [run_bind, run_get] at h
  split at h
  · rename_i hx
    cases h
    exact hx
  · cases h

end ParserM

namespace Parser

open ParserM

/-- The parser after it has been run a number of times. -/
def afterRuns (parser : Parser) : Nat → Parser
  | 0 => parser
  | count + 1 => (parser.afterRuns count).run.2

/-- A parser that has come to the end of its text, with a budget left for the next run. -/
structure AtEnd (parser : Parser) : Prop where
  rest : parser.lexer.cursor.rest = []
  budget : 0 < parser.budget

/-- At the end of the text a run finds an empty program, and stays there. -/
theorem AtEnd.run {parser : Parser} (h : parser.AtEnd) :
    parser.run.1 = .ok (.program []) ∧ parser.run.2.AtEnd := by
  have hn := Lexer.next_of_rest_nil h.rest .default
  -- one round is enough to see that there is no statement
  obtain ⟨rounds, hb⟩ := Nat.exists_eq_succ_of_ne_zero (Nat.pos_iff_ne_zero.mp h.budget)
  have hp : program arrowAhead parser = .ok (.program [])
      { parser with lexer := parser.lexer.next .default } := by
    simp only [program, nextToken, run_bind, run_modifyLexer, run_get, hn, hb, programBody,
      run_current, Option.isNone_none, if_true, run_pure]
  have hr : parser.lexer.next .default = { parser.lexer with current := none, exhausted := true } :=
    hn
  unfold Parser.run
  rw [hp]
  refine ⟨rfl, ?_, h.budget⟩
  simpa only [hr] using h.rest

theorem AtEnd.afterRuns {parser : Parser} (h : parser.AtEnd) (count : Nat) :
    (parser.afterRuns count).AtEnd := by
  induction count with
  | zero => exact h
  | succ count ih => exact ih.run.2

theorem afterRuns_succ (parser : Parser) (count : Nat) :
    parser.afterRuns (count + 1) = parser.run.2.afterRuns count := by
  induction count with
  | zero => rfl
  | succ count ih => rw [afterRuns, ih, afterRuns]

theorem atEnd_of_run_ok {parser : Parser} (ho : parser.operands = []) (hb : 0 < parser.budget)
    {tree : Node} (h : parser.run.1 = .ok tree) : parser.run.2.AtEnd := by
  have hq := program_quiet ho
  unfold Parser.run at h ⊢
  cases hp : program arrowAhead parser with
  | error failure after => simp [hp] at h
  | ok node after =>
    rw [hp] at hq
    -- the stream says that it is exhausted, and it is truthful
    have ht := hq.truthful (exhausted_of_program hp)
    have hn := hq.budget
    exact ⟨ht, by simpa only [hn] using hb⟩

theorem ofText_strict (source : String) (options : ParserOptions) (strict : Bool) :
    ofText source { options with strictOperandStack := strict } =
      (ofText source options).over ⟨[], [], strict⟩ := rfl

theorem run_quiet {parser : Parser} (ho : parser.operands = []) :
    parser.run.2.diagnostics = parser.diagnostics ∧
      ∀ error, parser.run.1 = .error (.rejected error) → error.code ≠ 1200 := by
  have hq := program_quiet ho
  unfold Parser.run
  cases hp : program arrowAhead parser with
  | ok tree after =>
    rw [hp] at hq
    refine ⟨hq.diagnostics, fun error he => ?_⟩
    cases he
  | error failure after =>
    rw [hp] at hq
    refine ⟨hq.1.diagnostics, fun error he hc => ?_⟩
    cases he
    -- the code belongs to one message only
    have hm : error.message = .unconsumedOperands := by
      unfold SyntaxError.code at hc
      cases hm : error.message <;> simp [hm, Message.code] at hc ⊢
    exact hq.2 hm

theorem run_over {parser : Parser} {ground : Ground} (ho : parser.operands = [])
    (hg : ground.operands = []) :
    (parser.over ground).run = (parser.run.1, parser.run.2.over ground) := by
  unfold Parser.run
  rw [program_over ho hg]
  cases program arrowAhead parser <;> rfl

/-- The discipline of the buffers. Whatever they hold, an entry into the grammar leaves them as they
are and does not depend on them; a rule that extends an operand is entered with the operand on top,
and takes up no other. So the first run over a text never ends with operands left over and reports
nothing, its outcome is the same whether or not such operands would be an error, and once it has
succeeded every further run finds the empty program. -/
theorem run_leaves_buffers (room : Nat) (source : String) (options : ParserOptions) :
    (∀ parser : Parser, parser.context.isExtending = false →
      ConfinedAt (node arrowAhead (goal arrowAhead room)) parser ∧
        ConfinedAt (operand arrowAhead (goal arrowAhead room)) parser) ∧
    (∀ parser kind slot, ConfinedAt (statement (goal arrowAhead room)) parser ∧
      ConfinedAt (operandAt (goal arrowAhead room) kind slot) parser) ∧
    (∀ operand operands word parser, HandedOver operand operands word parser →
      node arrowAhead (goal arrowAhead room) parser =
        extension (goal arrowAhead room) word.kind operand { parser with operands } ∧
      ConfinedAt (extension (goal arrowAhead room) word.kind operand) { parser with operands }) ∧
    (∀ error, (ofText source options).run.1 = .error (.rejected error) → error.code ≠ 1200) ∧
    (ofText source options).run.2.diagnostics = .empty ∧
    (∀ strict, (ofText source { options with strictOperandStack := strict }).run.1 =
      (ofText source options).run.1) ∧
    ∀ tree, (ofText source options).run.1 = .ok tree → ∀ count,
      ((ofText source options).afterRuns (count + 1)).run.1 = .ok (.program []) := by
  have hq := run_quiet (rfl : (ofText source options).operands = [])
  refine ⟨fun parser he => ⟨confinedAt_node room he, confinedAt_operand room he⟩,
    fun parser kind slot => ⟨(confined_statement room).confinedAt parser,
      (confined_sub room .operand rfl).confinedAt parser⟩,
    fun operand operands word parser h => ⟨node_of_handedOver h,
      (confined_extension room word.kind operand).confinedAt _⟩,
    hq.2, hq.1, fun strict => ?_, fun tree h count => ?_⟩
  · rw [ofText_strict, run_over rfl rfl]
  · have hb : 0 < (ofText source options).budget := Nat.succ_pos _
    have he : (ofText source options).run.2.AtEnd := atEnd_of_run_ok rfl hb h
    rw [afterRuns_succ]
    exact (he.afterRuns count).run.1

theorem run_leaves_buffers_member :
    (ofText "a.b" {}).run.1.isOk = true ∧
    ((ofText "a.b" {}).afterRuns 3).run.1 = .ok (.program []) ∧
    ConfinedAt (operand arrowAhead (goal arrowAhead 3)) (ofText "a.b" {}) ∧
    ∃ word parser, HandedOver (.identifier "a") [.thisExpression] word parser ∧
      node arrowAhead (goal arrowAhead 3) parser = extension (goal arrowAhead 3) word.kind
        (.identifier "a") { parser with operands := [.thisExpression] } := by
  have hr : (ofText "a.b" {}).run.1.isOk = true := by decide +kernel
  obtain ⟨h, -, hh, -, -, -, hn⟩ := run_leaves_buffers 3 "a.b" {}
  have ha : HandedOver (.identifier "a") [.thisExpression] ⟨.dot, ".", ".", 1, 2, none, false⟩
      { ofText "a.b" {} with
        lexer := ((Lexer.ofText "a.b".toList).next .default).next .default
        context := [.extending .identifier, .filling .expressionStatement .expression]
        operands := [.identifier "a", .thisExpression] } :=
    ⟨rfl, ⟨_, rfl, rfl⟩, rfl⟩
  have ht : ((ofText "a.b" {}).afterRuns 3).run.1 = .ok (.program []) := by
    cases he : (ofText "a.b" {}).run.1 with
    | ok tree => exact hn tree he 2
    | error failure => rw [he] at hr; cases hr
  exact ⟨hr, ht, (h _ rfl).2, _, _, ha, (hh _ _ _ _ ha).1⟩

end Parser

end ScriptTree
