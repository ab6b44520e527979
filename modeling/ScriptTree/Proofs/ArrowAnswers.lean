import Mathlib.Logic.Relation
import ScriptTree.Proofs.ArrowDecision
import ScriptTree.Proofs.Termination

/-!
The decision at an opening parenthesis, in every state that a parse can come to.

A parse is made of small steps: it goes on to a token or reads it again, puts aside operands and
parameters, enters and leaves constructs, and asks what an opening parenthesis starts. Each step
keeps up that all answers so far are right.
-/

namespace ScriptTree

/-- Ahead of a parenthesis, only tokens or the text of templates are read. -/
theorem Lookahead.mode_follow_mem (ahead : Lookahead) (token : Token) :
    ((ahead.decideClosed token).follow token).mode ∈ ParserM.ruleModes := by
  have hdefault : (ahead.decideClosed token).mode ∈ ParserM.ruleModes := by
    simp [decideClosed, ParserM.ruleModes]
  have htemplate : LexerMode.templateText ∈ ParserM.ruleModes := by simp [ParserM.ruleModes]
  unfold follow
  split
  case h_4 => split <;> assumption
  case h_6 => split <;> assumption
  all_goals assumption

namespace ParserM

/-- Asks what the current token starts, if it is an opening parenthesis. -/
def atParen (opensArrow : ParserM Bool) : ParserM Bool := do
  let word ← current
  if word.any fun word => word.kind == .openParen then opensArrow else pure false

section Asking

variable {opensArrow : ParserM Bool} {sub : Goal → ParserM Node}

/-- Only at an opening parenthesis a parse asks whether it starts an arrow function. -/
theorem opening_atParen {parser : Parser} {word : Token} (h : parser.lexer.current = some word) :
    opening (atParen opensArrow) sub word parser = opening opensArrow sub word parser := by
  by_cases hk : word.kind = .openParen
  · have hasked : atParen opensArrow parser = opensArrow parser := by
      simp [atParen, run_bind, run_current, h, hk]
    simp only [opening, hk, openingParen, run_bind, hasked]
  · -- the other kinds do not ask
    unfold opening
    generalize word.kind = kind at hk
    cases kind <;> first | rfl | exact absurd rfl hk

theorem node_atParen : node (atParen opensArrow) sub = node opensArrow sub := by
  funext parser
  cases hc : parser.lexer.current with
  | none => simp only [node, token, run_bind, run_current, hc, run_reject]
  | some word =>
    simp only [node, run_bind, run_token hc, run_get]
    split
    · rfl
    · exact opening_atParen hc

theorem extend_atParen (operand : Node) (rounds : Nat) :
    extend (atParen opensArrow) sub operand rounds = extend opensArrow sub operand rounds := by
  induction rounds generalizing operand with
  | zero => rfl
  | succ rounds ih => simp only [extend, node_atParen, ih]

theorem goal_atParen (room : Nat) : goal (atParen opensArrow) room = goal opensArrow room := by
  induction room with
  | zero =>
    funext entry
    rfl
  | succ room ih =>
    funext entry
    cases entry with
    | statement => simp only [goal, ih]
    | operand => simp only [goal, operand, node_atParen, extend_atParen, ih]

theorem program_atParen : program (atParen opensArrow) = program opensArrow := by
  simp only [program, goal_atParen]

end Asking

/-- The small steps that a parse is made of. -/
inductive Step : Parser → Parser → Prop
  | next (parser : Parser) (mode : LexerMode) :
    Step parser { parser with lexer := parser.lexer.next mode }
  | reread (parser : Parser) (mode : LexerMode) :
    Step parser { parser with lexer := parser.lexer.reread mode }
  | buffers (parser : Parser) (operands pendingParams : List Node)
      (diagnostics : DiagnosticList) :
    Step parser { parser with operands, pendingParams, diagnostics }
  | constructs (parser : Parser) (context : Context) : Step parser { parser with context }
  | ask {parser : Parser} {word : Token} :
    parser.lexer.current = some word → word.kind = .openParen →
    Step parser (stateOf (arrowAhead parser))

/-- Some steps lead from one state to another. -/
def Reaches : Parser → Parser → Prop := Relation.ReflTransGen Step

theorem reaches_lasting : Lasting Reaches where
  refl _ := .refl
  trans h h' := h.trans h'
  next parser mode := .single (.next parser mode)
  reread parser mode := .single (.reread parser mode)
  buffers parser operands pendingParams diagnostics :=
    .single (.buffers parser operands pendingParams diagnostics)
  leave h := (Relation.ReflTransGen.head (.constructs _ _) h).tail (.constructs _ _)

theorem reaches_atParen : Keeping Reaches (atParen arrowAhead) := by
  intro parser
  simp only [atParen, run_bind, run_current]
  split
  · rename_i hany
    cases hc : parser.lexer.current with
    | none =>
      rw [hc] at hany
      cases hany
    | some word =>
      have hk : word.kind = .openParen := by simpa [hc] using hany
      exact .single (.ask hc hk)
  · exact .refl

theorem reaches_goal (room : Nat) {frame : Frame} (entry : Goal) (hf : frame.isEnclosing = true) :
    Keeping Reaches (within frame (goal arrowAhead room entry)) := by
  rw [← goal_atParen]
  exact reaches_lasting.sub reaches_atParen room entry hf

theorem reaches_program : Keeping Reaches (program arrowAhead) := by
  rw [← program_atParen]
  exact reaches_lasting.program reaches_atParen

/-- The state of a parse in which a pass can start from the current token, if it is an opening
parenthesis. -/
structure Poised (parser : Parser) : Prop where
  faithful : parser.lexer.Faithful
  budget : parser.lexer.source.length < parser.budget
  ended : ∀ word, parser.lexer.current = some word → word.kind = .openParen →
    parser.lexer.afterOperand = false

namespace Poised

variable {parser : Parser} {word : Token}

theorem next (h : Poised parser) (mode : LexerMode) :
    Poised { parser with lexer := parser.lexer.next mode } := by
  refine ⟨h.faithful.next mode, ?_, fun word hc hk => Lexer.afterOperand_of_openParen hc hk⟩
  rw [Lexer.next_source]
  exact h.budget

theorem reread (h : Poised parser) (mode : LexerMode) :
    Poised { parser with lexer := parser.lexer.reread mode } := by
  refine ⟨h.faithful.reread mode, ?_, ?_⟩
  · rw [Lexer.reread_source]
    exact h.budget
  · intro word hc hk
    unfold Lexer.reread at hc ⊢
    split at hc
    · exact Lexer.afterOperand_of_openParen hc hk
    · exact Lexer.afterOperand_of_openParen hc hk

/-- There are more rounds than characters. -/
theorem enough (h : Poised parser) : parser.lexer.cursor.rest.length < parser.budget := by
  have hleft := h.faithful.left_le_length
  have hcursor := h.faithful.cursor_le_left
  have hbudget := h.budget
  omega

/-- At an opening parenthesis, the pass ahead begins. -/
theorem underway (h : Poised parser) (hc : parser.lexer.current = some word) :
    Lookahead.Position.Underway parser.lexer.source
      ⟨parser.budget, .ofParen word.start parser.arrowAnswers, parser.lexer⟩ := by
  obtain ⟨place, closesOperand, history, -, hat, hcursor⟩ := h.faithful.current word hc
  obtain ⟨hstart, -, hne, -⟩ := hat.spans
  refine ⟨h.faithful, rfl, h.enough, List.pairwise_singleton _ _, ?_, nofun⟩
  intro paren hin
  obtain rfl := List.mem_singleton.mp hin
  change word.start < parser.lexer.cursor.offset
  obtain ⟨c, raw, hraw⟩ := List.exists_cons_of_ne_nil hne
  have hpos := c.utf8Size_pos
  have hoffset : parser.lexer.cursor.offset = place.offset + byteLength word.raw.toList := by
    rw [hcursor, Cursor.advance]
  rw [hoffset, hraw, byteLength, hstart]
  omega

end Poised

/-- Two states of one text with the same number of steps; if passes can start in the first, they can
in the second. -/
structure StaysPoised (parser after : Parser) : Prop where
  source : after.lexer.source = parser.lexer.source
  budget : after.budget = parser.budget
  poised : Poised parser → Poised after

theorem staysPoised_lasting : Lasting StaysPoised where
  refl _ := ⟨rfl, rfl, id⟩
  trans h h' := ⟨h'.source.trans h.source, h'.budget.trans h.budget, h'.poised ∘ h.poised⟩
  next parser mode := ⟨Lexer.next_source _ _, rfl, fun h => h.next mode⟩
  reread parser mode := ⟨Lexer.reread_source _ _, rfl, fun h => h.reread mode⟩
  buffers _ _ _ _ := ⟨rfl, rfl, fun h => ⟨h.faithful, h.budget, h.ended⟩⟩
  leave h := by
    refine ⟨h.source, h.budget, fun hp => ?_⟩
    have hp' := h.poised ⟨hp.faithful, hp.budget, hp.ended⟩
    exact ⟨hp'.faithful, hp'.budget, hp'.ended⟩

theorem staysPoised_arrowAhead : Keeping StaysPoised arrowAhead := by
  have hanswers (parser : Parser) (answers : List (Nat × Bool)) :
      StaysPoised parser { parser with arrowAnswers := answers } :=
    ⟨rfl, rfl, fun h => ⟨h.faithful, h.budget, h.ended⟩⟩
  intro parser
  rw [run_arrowAhead]
  split
  · exact hanswers parser _
  · split
    · exact hanswers parser _
    · exact hanswers parser _

theorem staysPoised_enter (parser : Parser) (context : Context) :
    StaysPoised parser { parser with context } :=
  ⟨rfl, rfl, fun h => ⟨h.faithful, h.budget, h.ended⟩⟩

/-- Every opening parenthesis is answered. What is so of the answers kept and of those that a pass
would add is so of this answer. -/
theorem run_arrowAhead_answers {Good : Nat × Bool → Prop} {parser : Parser} {word : Token}
    (hc : parser.lexer.current = some word) (hold : ∀ entry ∈ parser.arrowAnswers, Good entry)
    (hnew : parser.arrowAnswers.lookup word.start = none →
      ∀ entry ∈ lookAhead parser word.start parser.arrowAnswers, Good entry) :
    ∃ answer answers, arrowAhead parser = .ok answer { parser with arrowAnswers := answers } ∧
      Good (word.start, answer) ∧ ∀ entry ∈ answers, Good entry := by
  rw [run_arrowAhead, hc]
  dsimp only
  cases hl : parser.arrowAnswers.lookup word.start with
  | some answer => exact ⟨answer, parser.arrowAnswers, rfl, hold _ (mem_of_lookup hl), hold⟩
  | none =>
    refine ⟨_, _, rfl, ?_, hnew hl⟩
    -- the parenthesis was open when the pass began, so there is an answer about it
    cases ha : (lookAhead parser word.start parser.arrowAnswers).lookup word.start with
    | some answer => exact hnew hl _ (mem_of_lookup ha)
    | none =>
      obtain ⟨answer, hin⟩ := Lookahead.exists_answer parser.budget parser.lexer
        (Or.inr (List.mem_singleton_self word.start) :
          (Lookahead.ofParen word.start parser.arrowAnswers).closed = some word.start ∨ _)
      have hno := List.lookup_eq_none_iff.mp ha _ hin
      simp at hno

/-- The state of a parse in which all answers so far are right. -/
structure Decided (parser : Parser) : Prop extends Poised parser where
  right : ∀ entry ∈ parser.arrowAnswers, Lookahead.Right parser.lexer.source entry

namespace Decided

variable {parser : Parser} {word : Token}

/-- A pass from an opening parenthesis adds right answers only. -/
theorem lookAhead_right (h : Decided parser) (hc : parser.lexer.current = some word)
    (hk : word.kind = .openParen) :
    ∀ entry ∈ lookAhead parser word.start parser.arrowAnswers,
      Lookahead.Right parser.lexer.source entry := by
  rintro ⟨paren, answer⟩ hin
  have hunder := h.underway hc
  rcases Lookahead.answers_right parser.budget hunder hin with (hold | hclosed | hopen) | hright
  · exact h.right _ hold
  · cases hclosed
  · -- the parenthesis that was asked about
    obtain rfl : paren = word.start := List.mem_singleton.mp hopen
    obtain ⟨front, hs, hf⟩ := h.faithful.splits_at_paren hc hk
    rcases Lookahead.Position.right_of_open hunder rfl rfl rfl (h.ended word hc hk) nofun hs hf
      hin with hold | hright
    · exact h.right _ hold
    · exact hright
  · exact hright

/-- Every opening parenthesis is answered, and the answer is right. -/
theorem arrowAhead_right (h : Decided parser) (hc : parser.lexer.current = some word)
    (hk : word.kind = .openParen) : ∃ answer answers,
      arrowAhead parser = .ok answer { parser with arrowAnswers := answers } ∧
        Lookahead.Right parser.lexer.source (word.start, answer) ∧
          ∀ entry ∈ answers, Lookahead.Right parser.lexer.source entry :=
  run_arrowAhead_answers hc h.right fun _ => h.lookAhead_right hc hk

/-- Every step keeps up that the answers so far are right. -/
theorem step {after : Parser} (h : Decided parser) (hs : Step parser after) : Decided after := by
  cases hs with
  | next mode =>
    refine ⟨h.toPoised.next mode, ?_⟩
    rw [Lexer.next_source]
    exact h.right
  | reread mode =>
    refine ⟨h.toPoised.reread mode, ?_⟩
    rw [Lexer.reread_source]
    exact h.right
  | buffers => exact ⟨⟨h.faithful, h.budget, h.ended⟩, h.right⟩
  | constructs => exact ⟨⟨h.faithful, h.budget, h.ended⟩, h.right⟩
  | ask hc hk =>
    -- the only step that adds answers
    obtain ⟨answer, answers, hasked, -, hright⟩ := h.arrowAhead_right hc hk
    rw [hasked]
    exact ⟨⟨h.faithful, h.budget, h.ended⟩, hright⟩

theorem reaches {after : Parser} (h : Decided parser) (hr : Reaches parser after) :
    Decided after := by
  induction hr with
  | refl => exact h
  | tail _ hs ih => exact ih.step hs

end Decided

end ParserM

namespace Parser

open ParserM

theorem ofText_poised (source : String) (options : ParserOptions) :
    Poised (ofText source options) where
  faithful := Lexer.ofText_faithful _
  budget := by
    change source.toList.length < 2 * source.toList.length + 4
    omega
  ended := nofun

theorem ofText_decided (source : String) (options : ParserOptions) :
    Decided (ofText source options) :=
  ⟨ofText_poised source options, nofun⟩

theorem reaches_source {source : String} {options : ParserOptions} {parser : Parser}
    (h : Reaches (ofText source options) parser) : parser.lexer.source = source.toList := by
  induction h with
  | refl => rfl
  | tail _ hs ih =>
    cases hs with
    | next mode => rw [Lexer.next_source, ih]
    | reread mode => rw [Lexer.reread_source, ih]
    | buffers => exact ih
    | constructs => exact ih
    | ask => exact (sameSetting_arrowAhead _).source.trans ih

/-- In a text, the decision at every opening parenthesis that a parse comes to is right: it is an
arrow function if and only if an arrow is behind the parenthesis that closes it, with the brackets
of the text in between matching each other. This is so in every state that the steps of a parse lead
to; what a run, or a statement or an operand in a construct, leaves behind is such a state.

Left out are parentheses around the head of a loop, whose own parenthesis is part of a keyword token
and is not counted, and around a slash of which it is not known whether it divides. -/
theorem arrowAhead_decides (source : String) (options : ParserOptions) :
    (∀ count, Reaches (ofText source options) ((ofText source options).afterRuns count)) ∧
    (∀ room frame entry parser, frame.isEnclosing = true →
      Reaches (ofText source options) parser → Reaches (ofText source options)
        (stateOf (within frame (goal arrowAhead room entry) parser))) ∧
    ∀ parser word, Reaches (ofText source options) parser → parser.lexer.current = some word →
      word.kind = .openParen → (∃ front, source.toList = front ++ '(' :: parser.lexer.cursor.rest ∧
          byteLength front = word.start) ∧
        ∃ answer answers,
          (∀ sub, openingParen arrowAhead sub parser =
            (if answer then arrowFunction sub else parenthesized sub)
              { parser with arrowAnswers := answers }) ∧
          ∀ rest, Closes parser.lexer.cursor.rest rest → (answer = true ↔ ArrowBehind rest) := by
  refine ⟨?_, ?_, ?_⟩
  · intro count
    induction count with
    | zero => exact .refl
    | succ count ih => exact ih.trans (reaches_program.run _)
  · intro room frame entry parser hf hr
    exact hr.trans (reaches_goal room entry hf parser)
  · intro parser word hr hc hk
    -- the invariant holds at the start and after each step, so it holds here
    have hd := (ofText_decided source options).reaches hr
    obtain ⟨answer, answers, hasked, hright, -⟩ := hd.arrowAhead_right hc hk
    obtain ⟨front, hs, hf⟩ := hd.faithful.splits_at_paren hc hk
    refine ⟨⟨front, (reaches_source hr).symm.trans hs, hf⟩, answer, answers, ?_, ?_⟩
    · intro sub
      simp only [openingParen, run_bind, hasked]
    · intro rest hcloses
      exact hright front _ rest hs hf hcloses

theorem closes_template :
    Closes "a = \x60)$\x7b(b)\x7d\x60) => c".toList " => c".toList := by
  have hname (c : Char) (ended : Option Bool) (rest after : List Char)
      (hf : ∀ afterOperand, Rule.first? .default afterOperand (c :: rest) =
        some (.form .identifierName .identifier, .whole [c]))
      (h : Stretch (.tokens (some true)) rest after) : Stretch (.tokens ended) (c :: rest) after :=
    @Stretch.token ended [] _ _ _ _ _ (.none _) rfl (fun afterOperand _ => hf afterOperand) rfl h
  have hsign : ∀ afterOperand,
      Rule.first? .default afterOperand "= \x60)$\x7b(b)\x7d\x60) => c".toList =
        some (.punctuators .assignmentOperator ["="], .whole ['=']) := by
    intro afterOperand
    cases afterOperand <;> exact Rule.first?_of_startingWith rfl (Rule.startingWith_of_lookup rfl) rfl
  refine ⟨") => c".toList, ?_, .none _⟩
  apply hname 'a'
  · intro afterOperand
    cases afterOperand <;> exact Rule.first?_of_startingWith rfl (Rule.startingWith_of_lookup rfl) rfl
  · refine @Stretch.token _ [' '] _ _ _ _ _ (.space rfl (.none _)) rfl
      (fun afterOperand _ => hsign afterOperand) rfl ?_
    refine .template (.space rfl (.none _)) ?_ (.nothing _ _)
    refine @Stretch.substitution [')'] _ _ _ _ rfl ?_ (.none _) (@Stretch.lastText [] _ rfl)
    refine .parentheses (.none _) ?_ (.none _) (.nothing _ _)
    apply hname 'b'
    · intro afterOperand
      cases afterOperand <;> exact Rule.first?_of_startingWith rfl (Rule.startingWith_of_lookup rfl) rfl
    · exact .nothing _ _

/-- A template inside the parentheses has parentheses in its text and in a substitution. -/
theorem arrowAhead_decides_template : ∃ parser word,
    Reaches (ofText "(a = \x60)$\x7b(b)\x7d\x60) => c" {}) parser ∧
    parser.lexer.current = some word ∧ word.kind = .openParen ∧
    Closes parser.lexer.cursor.rest " => c".toList ∧
    ∃ answers, ∀ sub, openingParen arrowAhead sub parser =
      arrowFunction sub { parser with arrowAnswers := answers } := by
  have hr := Relation.ReflTransGen.single
    (Step.next (ofText "(a = \x60)$\x7b(b)\x7d\x60) => c" {}) .default)
  have hc : ((Lexer.ofText "(a = \x60)$\x7b(b)\x7d\x60) => c".toList).next .default).current =
      some ⟨.openParen, "(", "(", 0, 1, none, false⟩ := by
    decide
  have hrest : ((Lexer.ofText "(a = \x60)$\x7b(b)\x7d\x60) => c".toList).next
      .default).cursor.rest = "a = \x60)$\x7b(b)\x7d\x60) => c".toList := by
    decide
  have hcloses := closes_template
  rw [← hrest] at hcloses
  obtain ⟨-, answer, answers, hopening, hright⟩ :=
    (arrowAhead_decides _ {}).2.2 _ _ hr hc rfl
  have hanswer : answer = true := (hright _ hcloses).mpr ⟨_, .space rfl (.none _)⟩
  subst hanswer
  exact ⟨_, _, hr, hc, rfl, hcloses, answers, hopening⟩

end Parser

end ScriptTree
