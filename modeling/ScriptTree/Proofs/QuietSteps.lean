import ScriptTree.Proofs.Exhaustion
import ScriptTree.Proofs.OperandStack

/-!
What the grammar rules never do: they report nothing, they never complain of operands left over, and
they never leave the token stream wrong about the end of the text.
-/

namespace ScriptTree

namespace ParserM

variable {α β : Type}

/-- A failure other than the complaint that operands were left over. -/
def SparesOperands : Failure → Prop
  | .rejected error => error.message ≠ .unconsumedOperands
  | .outOfSteps => True

/-- Nothing has been reported, and the token stream tells the truth about its end. -/
structure Undisturbed (parser after : Parser) : Prop where
  diagnostics : after.diagnostics = parser.diagnostics
  budget : after.budget = parser.budget
  truthful : after.lexer.Truthful

/-- What a quiet step comes to. A failure is not about operands left over. -/
def QuietEnd (parser : Parser) : EStateM.Result Failure Parser α → Prop
  | .ok _ after => Undisturbed parser after
  | .error failure after => Undisturbed parser after ∧ SparesOperands failure

/-- A step that reports nothing and never complains of operands left over. -/
def Quiet (m : ParserM α) : Prop := ∀ parser, parser.lexer.Truthful → QuietEnd parser (m parser)

theorem Undisturbed.refl {parser : Parser} (h : parser.lexer.Truthful) :
    Undisturbed parser parser := ⟨rfl, rfl, h⟩

theorem Undisturbed.trans {parser between after : Parser} (h : Undisturbed parser between)
    (h' : Undisturbed between after) : Undisturbed parser after :=
  ⟨h'.diagnostics.trans h.diagnostics, h'.budget.trans h.budget, h'.truthful⟩

theorem QuietEnd.of_undisturbed {parser between : Parser}
    {result : EStateM.Result Failure Parser α} (hd : Undisturbed parser between)
    (h : QuietEnd between result) : QuietEnd parser result := by
  cases result with
  | ok a after => exact hd.trans h
  | error failure after => exact ⟨hd.trans h.1, h.2⟩

theorem quiet_bind {m : ParserM α} {f : α → ParserM β} (hm : Quiet m) (hf : ∀ a, Quiet (f a)) :
    Quiet (m >>= f) := by
  intro parser ht
  have h := hm parser ht
  rw [run_bind]
  cases hr : m parser with
  | ok a between =>
    rw [hr] at h
    exact (hf a between h.truthful).of_undisturbed h
  | error failure between =>
    rw [hr] at h
    exact h

theorem quiet_reject {error : Parser → SyntaxError}
    (h : ∀ parser, (error parser).message ≠ .unconsumedOperands) :
    Quiet (reject error : ParserM α) := fun parser ht => ⟨.refl ht, h parser⟩

theorem invalidCharacter_code (parser : Parser) : parser.invalidCharacter.code < 1200 := by
  unfold Parser.invalidCharacter
  dsimp only
  split
  · exact (by decide : Message.invalidCharacter.code < 1200)
  · exact (by decide : Message.unexpectedEnd.code < 1200)

theorem unexpected_code (parser : Parser) : parser.unexpected.code < 1200 := by
  unfold Parser.unexpected
  dsimp only
  split
  · exact (by decide : Message.unexpectedToken.code < 1200)
  · split
    · exact (by decide : Message.unexpectedEnd.code < 1200)
    · exact invalidCharacter_code parser

theorem wanting_code (parser : Parser) (wanted : String) : (parser.wanting wanted).code < 1200 := by
  unfold Parser.wanting
  dsimp only
  split
  · exact (by decide : Message.expectedButFound.code < 1200)
  · split
    · exact (by decide : Message.expectedAtEnd.code < 1200)
    · exact invalidCharacter_code parser

/-- The codes from 1200 on are those of errors that no rule gives about the current token. -/
theorem complaint_code (parser : Parser) {message : Message} (h : message ∈ complaints) :
    (parser.complaint message).code < 1200 := by
  unfold Parser.complaint
  split
  · have hc : ∀ message ∈ complaints, message.code < 1200 := by decide
    exact hc message h
  · exact unexpected_code parser

theorem spares_of_code {error : SyntaxError} (h : error.code < 1200) :
    error.message ≠ .unconsumedOperands := by
  intro he
  rw [SyntaxError.code, he] at h
  exact absurd h (by decide)

theorem quiet_elementary : Elementary @Quiet where
  pure _ _ ht := .refl ht
  bind := quiet_bind
  current _ ht := .refl ht
  surroundings _ ht := .refl ht
  budget _ ht := .refl ht
  outOfSteps _ ht := ⟨.refl ht, trivial⟩
  unexpected := quiet_reject fun parser => spares_of_code (unexpected_code parser)
  wanting wanted := quiet_reject fun parser => spares_of_code (wanting_code parser wanted)
  complaint h := quiet_reject fun parser => spares_of_code (complaint_code parser h)
  next {mode} _ parser _ := ⟨rfl, rfl, parser.lexer.next_truthful mode⟩
  reread {mode} _ parser _ := ⟨rfl, rfl, parser.lexer.reread_truthful mode⟩

theorem quiet_within (frame : Frame) {m : ParserM α} (h : Quiet m) : Quiet (within frame m) := by
  intro parser ht
  by_cases hd : parser.options.maxDepth ≤ parser.context.length
  · rw [run_within_full hd]
    exact ⟨.refl ht, nofun⟩
  · have hm := h { parser with context := frame :: parser.context } ht
    rw [run_within (Nat.not_le.mp hd)]
    cases hr : m { parser with context := frame :: parser.context } with
    | ok a after =>
      rw [hr] at hm
      exact ⟨hm.diagnostics, hm.budget, hm.truthful⟩
    | error failure after =>
      rw [hr] at hm
      exact ⟨⟨hm.1.diagnostics, hm.1.budget, hm.1.truthful⟩, hm.2⟩

theorem quiet_handOver (frame : Frame) (operand : Node) {step : Node → ParserM Node}
    (h : ∀ x, Quiet (step x)) : Quiet (handOver frame operand step) := by
  intro parser ht
  by_cases hd : parser.options.maxDepth ≤ parser.context.length
  · rw [run_handOver_full hd]
    exact ⟨⟨rfl, rfl, ht⟩, nofun⟩
  · rw [run_handOver (Nat.not_le.mp hd)]
    exact quiet_within frame (h operand) parser ht

theorem quiet_tryModifier (sameLine : Bool) : Quiet (tryModifier sameLine) := by
  intro parser ht
  rw [run_tryModifier]
  split
  · exact ⟨rfl, rfl, Lexer.next_truthful _ _⟩
  · exact ⟨rfl, rfl, Lexer.reread_truthful _ _⟩

theorem quiet_collectParams {item : ParserM Node} (h : Quiet item) : Quiet (collectParams item) := by
  have hi : Quiet (parameterItem item) := quiet_bind h fun _ _ hq => ⟨rfl, rfl, hq⟩
  have hl : Quiet (parameterList item) :=
    quiet_bind (quiet_elementary.closedList _ hi) fun _ => quiet_elementary.require .arrow
  have ht (mark : Nat) : Quiet (takeParams mark) := fun _ hq => ⟨rfl, rfl, hq⟩
  intro parser hq
  rw [run_collectParams]
  exact quiet_bind hl (fun _ => ht _) parser hq

theorem quiet_arrowAhead : Quiet arrowAhead := by
  intro parser ht
  rw [run_arrowAhead]
  split
  · exact .refl ht
  · split <;> exact ⟨rfl, rfl, ht⟩

theorem quiet_compositional : Compositional @Quiet where
  toElementary := quiet_elementary
  modifier := quiet_tryModifier
  within frame _ h := quiet_within frame h
  collectParams := quiet_collectParams
  handOver frame operand _ h := quiet_handOver frame operand h

end ParserM

end ScriptTree
