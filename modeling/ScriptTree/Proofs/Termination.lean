import ScriptTree.Proofs.StatementProgress

/-!
Parsing comes to an end.

Each entry into the grammar that succeeds has got on in the text, so no loop runs out of rounds, and
each goal inside another has a construct around it, so the limit on constructs is met before the
recursion between goals ends.
-/

namespace ScriptTree

namespace ParserM

section Operands

variable {room : Nat} {opensArrow : ParserM Bool} {sub : Goal → ParserM Node}
  (hsub : ∀ {frame : Frame} (goal : Goal), frame.isEnclosing = true →
    Advances room (within frame (sub goal)))
include hsub

theorem movesOn_opening (harrow : Steady room opensArrow) (word : Token) :
    MovesOn room (opening opensArrow sub word) := by
  unfold opening
  split
  iterate 5 exact advances_identifier.movesOn
  · exact advances_reservedWord.movesOn
  iterate 4 exact advances_literal.movesOn
  · exact (passes_template hsub).movesOn
  · exact (passes_nextToken.bind fun _ => steady_pure _).movesOn
  · exact (advances_function hsub).movesOn
  · exact (passes_classDefinition hsub).movesOn
  · exact (advances_construction hsub).movesOn
  · exact (advances_yieldOperand hsub).movesOn
  · exact (advances_spread hsub).movesOn
  · exact (advances_openingParen hsub harrow).movesOn
  · exact (advances_array hsub).movesOn
  · refine looks_get.movesOn fun _ => ?_
    split
    · exact (advances_block hsub).movesOn
    · exact (advances_object hsub).movesOn
  · split
    · exact advances_regexOperand.movesOn
    · exact (advances_leadingOperator hsub).movesOn
  · split
    · exact advances_regexOperand.movesOn
    · exact (advances_reject _).movesOn
  · exact (advances_reject _).movesOn

theorem advances_fresh (harrow : Steady room opensArrow) :
    Advances room (fresh opensArrow sub) :=
  advances_token fun word => movesOn_opening hsub harrow word

/-- An operand grows by the token that continues it, at least. -/
theorem endsWell_handOver {parser : Parser} {operand : Node} {word : Token}
    (hr : Ready room parser) (hw : parser.lexer.current = some word)
    (ha : parser.context.admits operand word = true) :
    EndsWell parser parser.lexer.left
      (handOver (.extending operand.kind) operand (extension sub word.kind) parser) := by
  by_cases hd : parser.options.maxDepth ≤ parser.context.length
  · rw [run_handOver_full hd]
    exact endsWell_rejected _ _
  · rw [run_handOver (Nat.not_le.mp hd)]
    exact .within fun _ => endsWell_extension hsub (hr.enter _) hw ha

theorem endsWell_extend (operand : Node) (rounds : Nat) {parser : Parser} (hr : Ready room parser)
    (hl : parser.lexer.left < rounds) :
    EndsWell parser (parser.lexer.left + 1) (extend opensArrow sub operand rounds parser) := by
  induction rounds generalizing operand parser with
  | zero => exact absurd hl (Nat.not_lt_zero _)
  | succ rounds ih =>
    rw [extend_succ, run_bind, run_current]
    dsimp only
    cases hw : parser.lexer.current with
    | none => exact .refl hr operand
    | some word =>
      dsimp only
      rw [run_bind, run_continues]
      dsimp only
      split
      · rename_i ha
        have hlonger := endsWell_handOver hsub hr hw (Bool.and_eq_true_iff.mp ha).2
        refine EndsWell.bind hr hlonger fun longer between _ hr₁ hl₁ => ?_
        exact (ih longer hr₁ (by omega)).mono (by omega)
      · exact .refl hr operand

theorem advances_freshOperand (harrow : Steady room opensArrow) :
    Advances room (freshOperand opensArrow sub) :=
  (advances_fresh hsub harrow).bind fun first =>
    steady_of_rounds fun hr hl => endsWell_extend hsub first _ hr hl

end Operands

theorem steady_arrowAhead {room : Nat} : Steady room arrowAhead := by
  intro parser hr
  rw [run_arrowAhead]
  split
  · exact .refl hr false
  · split
    · exact .refl hr _
    · exact ⟨⟨rfl, rfl, rfl, rfl⟩, hr.faithful, Nat.lt_succ_self _⟩

/-- Where there is no room, there is a construct too many. Otherwise the construct takes up one place
of the room, and the goal gets on if those inside it do. -/
theorem advances_goal (room : Nat) {frame : Frame} (entry : Goal) (hf : frame.isEnclosing = true) :
    Advances room (within frame (goal arrowAhead room entry)) := by
  induction room generalizing frame entry with
  | zero =>
    -- without room the limit on constructs is reached, and that is an error of its own
    intro parser hr
    rw [run_within_full hr.room]
    exact endsWell_rejected _ _
  | succ room ih =>
    intro parser hr
    refine .within fun _ => ?_
    have hin : Ready room { parser with context := frame :: parser.context } := by
      refine ⟨hr.faithful, hr.budget, ?_⟩
      have hroom := hr.room
      simp only [List.length_cons]
      omega
    cases entry with
    | statement => exact advances_statement ih _ hin
    | operand =>
      have hn : goal arrowAhead (room + 1) .operand
            { parser with context := frame :: parser.context } =
          freshOperand arrowAhead (goal arrowAhead room)
            { parser with context := frame :: parser.context } :=
        operand_of_not_extending (isExtending_of_isEnclosing hf)
      rw [hn]
      exact advances_freshOperand ih steady_arrowAhead _ hin

theorem steady_settleOperands {room : Nat} : Steady room settleOperands := by
  intro parser hr
  simp only [settleOperands, run_bind, run_get]
  split
  · exact .refl hr ()
  · split
    · exact endsWell_rejected _ _
    · exact ⟨sameSetting_lasting.buffers parser _ _ _, hr.faithful, Nat.lt_succ_self _⟩

theorem endsWell_programBody {room : Nat} (rounds : Nat) {parser : Parser} (hr : Ready room parser)
    (hl : parser.lexer.left < rounds) :
    EndsWell parser (parser.lexer.left + 1) (programBody (goal arrowAhead room) rounds parser) := by
  induction rounds generalizing parser with
  | zero => exact absurd hl (Nat.not_lt_zero _)
  | succ rounds ih =>
    rw [programBody, run_bind, run_current]
    dsimp only
    split
    · exact .refl hr []
    · have hfirst := advances_statementAt (advances_goal room) .program .body parser hr
      refine EndsWell.bind hr hfirst fun first p₁ _ hr₁ hl₁ => ?_
      refine EndsWell.bind hr₁ (steady_settleOperands p₁ hr₁) fun _ p₂ _ hr₂ hl₂ => ?_
      refine EndsWell.bind hr₂ (ih hr₂ (by omega)) fun others p₃ _ hr₃ hl₃ => ?_
      exact (EndsWell.refl hr₃ _).mono (by omega)

theorem endsWell_program {parser : Parser} (hr : Ready parser.options.maxDepth parser) :
    EndsWell parser (parser.lexer.left + 1) (program arrowAhead parser) := by
  refine EndsWell.bind hr (passes_nextToken.steady parser hr) fun _ p₁ hm hr₁ hl₁ => ?_
  have hdepth : p₁.options.maxDepth = parser.options.maxDepth := by
    cases hm
    rfl
  rw [run_bind, run_get]
  dsimp only
  rw [hdepth]
  have hb := hr₁.left_lt_budget
  have hbody := endsWell_programBody p₁.budget hr₁ (by omega)
  refine EndsWell.bind hr₁ hbody fun body p₂ _ hr₂ hl₂ => ?_
  rw [run_bind, run_get]
  dsimp only
  split
  · exact (EndsWell.refl hr₂ _).mono (by omega)
  · exact endsWell_rejected _ _

/-- What an entry into the grammar comes to. If it succeeds, the current token is gone or one further
on, and the parse can go on from there; if it fails, then not for want of steps. -/
def GetsOn {α : Type} (room : Nat) (parser : Parser) : EStateM.Result Failure Parser α → Prop
  | .ok _ after => Ready room after ∧
      ∀ later, after.lexer.current = some later → parser.lexer.marker < later.start
  | .error failure _ => failure ≠ .outOfSteps

section Entries

variable {α : Type} {room : Nat} {parser : Parser}

/-- Where less is left than before, the current token is further on. -/
theorem EndsWell.getsOn (hr : Ready room parser) {result : EStateM.Result Failure Parser α}
    (h : EndsWell parser parser.lexer.left result) : GetsOn room parser result := by
  cases result with
  | error failure after => exact h
  | ok a after =>
    obtain ⟨hs, hf, hl⟩ := h
    refine ⟨hr.of_sameSetting hs hf, ?_⟩
    intro later hlater
    have hmarker : after.lexer.marker = later.start := by
      unfold Lexer.marker
      rw [hlater]
    have hm := hr.faithful.marker_lt hf hs.source hl
    rw [hmarker] at hm
    exact hm

theorem Advances.getsOn {m : ParserM α} (h : Advances room m) (hr : Ready room parser) :
    GetsOn room parser (m parser) :=
  (h parser hr).getsOn hr

/-- A node gets on, whether it starts with the current token or goes on from an operand. -/
theorem getsOn_node (hr : Ready room parser) (h : parser.context.isExtending = false ∨
      ∃ operand operands word, HandedOver operand operands word parser) :
    GetsOn room parser (node arrowAhead (goal arrowAhead room) parser) := by
  rcases h with hfresh | ⟨operand, operands, word, h⟩
  · rw [node_of_not_extending hfresh]
    exact (advances_fresh (advances_goal room) steady_arrowAhead).getsOn hr
  · obtain ⟨context, -, ha⟩ := h.entered
    have hr' : Ready room { parser with operands } := ⟨hr.faithful, hr.budget, hr.room⟩
    have hext := endsWell_extension (advances_goal room) hr' h.current ha
    rw [node_of_handedOver h]
    exact hext.getsOn hr'

end Entries

end ParserM

/-- Reading ahead for a parenthesis ends with the text: further rounds change nothing. -/
theorem Lookahead.scan_add (extra rounds : Nat) (ahead : Lookahead) {lexer : Lexer}
    (hf : lexer.Faithful) (hl : lexer.cursor.rest.length < rounds) :
    scan (rounds + extra) ahead lexer = scan rounds ahead lexer := by
  induction rounds generalizing ahead lexer with
  | zero => exact absurd hl (Nat.not_lt_zero _)
  | succ rounds ih =>
    rw [Nat.succ_add, scan, scan]
    dsimp only
    cases hc : (lexer.next ahead.mode).current with
    | none => rfl
    | some token =>
      dsimp only
      split
      · rfl
      · have hnext := hf.next ahead.mode
        -- the token was not empty, so the cursor has moved
        have hlt := hnext.cursor_lt_left hc
        have hle := lexer.next_left_le ahead.mode
        exact ih _ hnext (by omega)

/-- So does looking for a token behind white space and comments. -/
theorem Lexer.seek_add (mode : LexerMode) (afterOperand : Bool) (extra fuel : Nat) {place : Cursor}
    (newline : Bool) (hl : place.rest.length < fuel) :
    seek mode afterOperand (fuel + extra) place newline = seek mode afterOperand fuel place newline := by
  induction fuel generalizing place newline with
  | zero => exact absurd hl (Nat.not_lt_zero _)
  | succ fuel ih =>
    rw [Nat.succ_add, seek, seek]
    split
    · rfl
    · rename_i hne
      have hpos : 0 < place.rest.length := List.length_pos_iff.mpr fun h => hne (List.isEmpty_iff.mpr h)
      cases hf : Rule.first? mode afterOperand place.rest with
      | none => rfl
      | some found =>
        obtain ⟨rule, lexeme⟩ := found
        dsimp only
        have hraw := List.length_pos_iff.mpr (Rule.raw_ne_nil_of_first hf)
        have hshort : (place.advance lexeme.raw).rest.length < fuel := by
          rw [Cursor.advance, List.length_drop]
          omega
        rw [ih _ hshort]

namespace Parser

open ParserM

theorem ofText_ready (source : String) (options : ParserOptions) :
    Ready options.maxDepth (ofText source options) where
  faithful := Lexer.ofText_faithful _
  budget := le_refl _
  room := Nat.le_add_left _ _

/-- The parser after a number of runs is still set up as it was, and its stream is faithful. -/
theorem afterRuns_setting (source : String) (options : ParserOptions) (count : Nat) :
    SameSetting (ofText source options) ((ofText source options).afterRuns count) ∧
      ((ofText source options).afterRuns count).lexer.Faithful := by
  induction count with
  | zero => exact ⟨sameSetting_lasting.refl _, Lexer.ofText_faithful _⟩
  | succ count ih =>
    obtain ⟨hs, hf⟩ := ih
    exact ⟨sameSetting_lasting.trans hs (run_sameSetting _), run_faithful hf⟩

theorem run_ne_outOfSteps {parser : Parser} (hr : Ready parser.options.maxDepth parser) :
    parser.run.1 ≠ .error .outOfSteps := by
  have hp := endsWell_program hr
  unfold Parser.run
  cases h : program arrowAhead parser with
  | ok tree after =>
    intro he
    cases he
  | error failure after =>
    rw [h] at hp
    intro he
    cases he
    exact hp rfl

/-- Parsing comes to an end, however often the parser is run and whatever the text is: the budget,
which follows from the length of the text, and the limit on constructs are never used up. The reason
is that every entry into the grammar gets on in the text, and so does a chain of operators, which is
only entered at an operator that it takes; reading ahead and looking for a token end with the text. -/
theorem run_terminates (source : String) (options : ParserOptions) :
    (∀ count, Ready options.maxDepth ((ofText source options).afterRuns count) ∧
      ((ofText source options).afterRuns count).run.1 ≠ .error .outOfSteps) ∧
    ∀ room parser, Ready room parser →
      ((parser.context.isExtending = false ∨
          ∃ operand operands word, HandedOver operand operands word parser) →
        GetsOn room parser (node arrowAhead (goal arrowAhead room) parser)) ∧
      GetsOn room parser (statement (goal arrowAhead room) parser) ∧
      GetsOn room parser (classMember (goal arrowAhead room) parser) ∧
      (∀ owner, GetsOn room parser (objectMember (goal arrowAhead room) owner parser)) ∧
      GetsOn room parser (switchCase (goal arrowAhead room) parser) ∧
      (∀ operand word, parser.lexer.current = some word →
        parser.context.admits operand word = true → word.kind = .operator →
          Operator.isUpdate word.value = false → AtOperator Operator.leastStrength parser) ∧
      (∀ left least rounds, 2 * parser.lexer.left + 1 ≤ rounds → AtOperator least parser →
        GetsOn room parser (takeOperators (goal arrowAhead room) left least rounds parser)) ∧
      (∀ right strength rounds, 2 * parser.lexer.left + 2 ≤ rounds → AtTighter strength parser →
        GetsOn room parser (absorb (goal arrowAhead room) right strength rounds parser)) ∧
      (∀ extra ahead, Lookahead.scan (parser.budget + extra) ahead parser.lexer =
        Lookahead.scan parser.budget ahead parser.lexer) ∧
      ∀ mode afterOperand extra place newline,
        Lexer.seek mode afterOperand (place.rest.length + 1 + extra) place newline =
          Lexer.seek mode afterOperand (place.rest.length + 1) place newline := by
  constructor
  · intro count
    obtain ⟨hs, hf⟩ := afterRuns_setting source options count
    have hr := (ofText_ready source options).of_sameSetting hs hf
    refine ⟨hr, run_ne_outOfSteps ?_⟩
    rw [hs.options]
    exact hr
  · intro room parser hr
    have hsub : ∀ {frame : Frame} (entry : Goal), frame.isEnclosing = true →
        Advances room (within frame (goal arrowAhead room entry)) := advances_goal room
    refine ⟨getsOn_node hr, (advances_statement hsub).getsOn hr,
      (advances_classMember hsub).getsOn hr, fun owner => (advances_objectMember hsub owner).getsOn hr,
      (advances_switchCase hsub).getsOn hr, ?_, ?_, ?_, ?_, ?_⟩
    · intro operand word hw ha hk hu
      obtain ⟨strength, hs, hle⟩ := Context.strength_of_admits ha hk hu
      exact ⟨word, strength, hw, hs, hle⟩
    · intro left least rounds hb hat
      have htake := (endsWell_operators hsub rounds).1 left least hr hb
      exact (htake.resolve_left fun h => h.2 hat).getsOn hr
    · intro right strength rounds hb hat
      have habsorb := (endsWell_operators hsub rounds).2 right strength hr hb
      exact (habsorb.resolve_left fun h => h.2 hat).getsOn hr
    · intro extra ahead
      have hc := hr.faithful.cursor_le_left
      have hb := hr.left_lt_budget
      exact Lookahead.scan_add extra parser.budget ahead hr.faithful (by omega)
    · intro mode afterOperand extra place newline
      exact Lexer.seek_add mode afterOperand extra _ newline (Nat.lt_succ_self _)

/-- The text ends inside a class, and the parse with it. -/
theorem run_terminates_unclosed :
    ((ofText "class a \x7b b(" {}).afterRuns 2).run.1 ≠ .error .outOfSteps ∧
    ∃ parser, Ready 3 parser ∧ AtOperator 5 parser ∧
      GetsOn 3 parser (statement (goal arrowAhead 3) parser) ∧
      GetsOn 3 parser (takeOperators (goal arrowAhead 3) .thisExpression 5 7 parser) := by
  have h := run_terminates "class a \x7b b(" {}
  have hf : ((Lexer.ofText "+ 1".toList).next .default).Faithful :=
    (Lexer.ofText_faithful _).next .default
  have hr : Ready 3 { ofText "+ 1" { maxDepth := 3 } with
      lexer := (Lexer.ofText "+ 1".toList).next .default } :=
    ⟨hf, by decide, by decide⟩
  have hat : AtOperator 5 { ofText "+ 1" { maxDepth := 3 } with
      lexer := (Lexer.ofText "+ 1".toList).next .default } :=
    ⟨_, _, rfl, rfl, by decide⟩
  obtain ⟨-, hstatement, -, -, -, -, htake, -⟩ := h.2 3 _ hr
  exact ⟨(h.1 2).2, _, hr, hat, hstatement, htake _ _ _ (by decide) hat⟩

end Parser

end ScriptTree
