import ScriptTree.Proofs.StateLaws
import ScriptTree.Proofs.Termination

/-!
What a parse does on its way, moment by moment.

A step of the grammar is built from small ones: it reads tokens, asks about arrows, enters
constructs, and does what leaves the token stream and the constructs alone. Following how it is
built, one gets from the state in which it begins to every state in which something happens. Of
interest are the constructs in progress: every step leaves those that it found, there are never more
of them than the options allow, and the error about their number is given exactly where one more
would be entered.
-/

namespace ScriptTree

/-- What happens at one moment of a parse. -/
inductive Moment where
  /-- A step begins. -/
  | begins
  /-- The next token is read in a mode. -/
  | reads (mode : LexerMode)
  /-- The current token is read again in a mode. -/
  | rereads (mode : LexerMode)
  /-- It is asked whether a parenthesis starts an arrow function. -/
  | asks
  /-- A construct is to be entered. -/
  | enters (frame : Frame)

namespace ParserM

variable {α β : Type}

/-- A step that leaves all but the buffers alone, and whose errors are not about depth. -/
structure Plain (m : ParserM α) : Prop where
  leaves : ∀ parser, ∃ operands pendingParams diagnostics,
    stateOf (m parser) = { parser with operands, pendingParams, diagnostics }
  spares : ∀ {parser error after}, m parser = .error (.rejected error) after → error.code ≠ 1202

/-- A step that is built from those of the grammar. How arrows are foreseen is left open. -/
inductive Built (opensArrow : ParserM Bool) : ∀ {α : Type}, ParserM α → Prop
  | plain {α : Type} {m : ParserM α} : Plain m → Built opensArrow m
  | next {mode : LexerMode} : mode ∈ ruleModes →
      Built opensArrow (modifyLexer fun lexer => lexer.next mode)
  | reread {mode : LexerMode} : mode ∈ ruleModes →
      Built opensArrow (modifyLexer fun lexer => lexer.reread mode)
  | modifier (sameLine : Bool) : Built opensArrow (tryModifier sameLine)
  | asks : Built opensArrow opensArrow
  | within {α : Type} (frame : Frame) {m : ParserM α} :
      Built opensArrow m → Built opensArrow (within frame m)
  | bind {α β : Type} {m : ParserM α} {f : α → ParserM β} :
      Built opensArrow m → (∀ a, Built opensArrow (f a)) → Built opensArrow (m >>= f)

/-- A step, begun in one state, comes to a moment in another state. -/
inductive Makes (opensArrow : ParserM Bool) :
    ∀ {α : Type}, ParserM α → Parser → Moment → Parser → Prop
  | begins {α : Type} {m : ParserM α} {parser : Parser} :
      Built opensArrow m → Makes opensArrow m parser .begins parser
  | next {mode : LexerMode} {parser : Parser} : mode ∈ ruleModes →
      Makes opensArrow (modifyLexer fun lexer => lexer.next mode) parser (.reads mode) parser
  | reread {mode : LexerMode} {parser : Parser} : mode ∈ ruleModes →
      Makes opensArrow (modifyLexer fun lexer => lexer.reread mode) parser (.rereads mode) parser
  | modifier {sameLine : Bool} {parser : Parser} :
      Makes opensArrow (tryModifier sameLine) parser (.reads .default) parser
  | notModifier {sameLine : Bool} {parser after : Parser} :
      tryModifier sameLine parser = .ok false after →
        Makes opensArrow (tryModifier sameLine) parser (.rereads .names) parser
  | asks {parser : Parser} : Makes opensArrow opensArrow parser .asks parser
  | enters {α : Type} {frame : Frame} {m : ParserM α} {parser : Parser} : Built opensArrow m →
      Makes opensArrow (within frame m) parser (.enters frame) parser
  | inside {α : Type} {frame : Frame} {m : ParserM α} {parser between : Parser} {moment : Moment} :
      parser.context.length < parser.options.maxDepth →
        Makes opensArrow m { parser with context := frame :: parser.context } moment between →
          Makes opensArrow (within frame m) parser moment between
  | first {α β : Type} {m : ParserM α} {f : α → ParserM β} {parser between : Parser}
      {moment : Moment} : Makes opensArrow m parser moment between → (∀ a, Built opensArrow (f a)) →
        Makes opensArrow (m >>= f) parser moment between
  | later {α β : Type} {m : ParserM α} {f : α → ParserM β} {a : α}
      {parser after between : Parser} {moment : Moment} : Built opensArrow m →
        m parser = .ok a after → Makes opensArrow (f a) after moment between →
          Makes opensArrow (m >>= f) parser moment between

section Plain

theorem plain_look {m : ParserM α} (h : ∀ parser, ∃ a, m parser = .ok a parser) : Plain m where
  leaves parser := by
    obtain ⟨a, hm⟩ := h parser
    rw [hm]
    exact ⟨parser.operands, parser.pendingParams, parser.diagnostics, rfl⟩
  spares {parser error after} hm := by
    obtain ⟨a, ha⟩ := h parser
    rw [ha] at hm
    cases hm

theorem plain_reject {error : Parser → SyntaxError} (h : ∀ parser, (error parser).code ≠ 1202) :
    Plain (reject error : ParserM α) where
  leaves parser := ⟨parser.operands, parser.pendingParams, parser.diagnostics, rfl⟩
  spares {parser _ _} hm := by
    cases hm
    exact h parser

theorem plain_modify {change : Parser → Parser} (h : ∀ parser, ∃ operands pendingParams diagnostics,
    change parser = { parser with operands, pendingParams, diagnostics }) :
    Plain (modify change) where
  leaves := h
  spares hm := by cases hm

theorem plain_takeOperand : Plain takeOperand where
  leaves parser := by
    cases ho : parser.operands with
    | nil =>
      refine ⟨parser.operands, parser.pendingParams, parser.diagnostics, ?_⟩
      have hm : takeOperand parser =
          .error (.rejected (parser.complaint .missingLeftOperand)) parser := by
        simp only [takeOperand, run_bind, run_get, ho, run_reject]
      rw [hm]
      rfl
    | cons operand operands =>
      rw [run_takeOperand ho]
      exact ⟨operands, parser.pendingParams, parser.diagnostics, rfl⟩
  spares {parser error after} hm := by
    cases ho : parser.operands with
    | nil =>
      simp only [takeOperand, run_bind, run_get, ho, run_reject] at hm
      cases hm
      have hc := complaint_code parser (by decide : Message.missingLeftOperand ∈ complaints)
      omega
    | cons operand operands =>
      rw [run_takeOperand ho] at hm
      cases hm

theorem plain_settleOperands : Plain settleOperands where
  leaves parser := by
    simp only [settleOperands, run_bind, run_get]
    split
    · exact ⟨parser.operands, parser.pendingParams, parser.diagnostics, rfl⟩
    · split
      · exact ⟨parser.operands, parser.pendingParams, parser.diagnostics, rfl⟩
      · exact ⟨[], parser.pendingParams, _, rfl⟩
  spares {parser error after} hm := by
    simp only [settleOperands, run_bind, run_get] at hm
    split at hm
    · cases hm
    · split at hm
      · cases hm
        exact (by decide : Message.unconsumedOperands.code ≠ 1202)
      · cases hm

end Plain

variable {opensArrow : ParserM Bool}

theorem built_pure (a : α) : Built opensArrow (pure a : ParserM α) :=
  .plain (plain_look fun _ => ⟨a, rfl⟩)

theorem built_get : Built opensArrow (get : ParserM Parser) :=
  .plain (plain_look fun parser => ⟨parser, rfl⟩)

theorem built_reject {error : Parser → SyntaxError} (h : ∀ parser, (error parser).code < 1200) :
    Built opensArrow (reject error : ParserM α) := by
  refine .plain (plain_reject fun parser => ?_)
  have hc := h parser
  omega

theorem built_elementary : Elementary (fun {α} (m : ParserM α) => Built opensArrow m) where
  pure := built_pure
  bind := .bind
  current := .plain (plain_look fun _ => ⟨_, rfl⟩)
  surroundings := .plain (plain_look fun _ => ⟨_, rfl⟩)
  budget := .plain (plain_look fun _ => ⟨_, rfl⟩)
  outOfSteps := .plain ⟨fun _ => ⟨_, _, _, rfl⟩, fun hm => by cases hm⟩
  unexpected := built_reject unexpected_code
  wanting wanted := built_reject fun parser => wanting_code parser wanted
  complaint h := built_reject fun parser => complaint_code parser h
  next := .next
  reread := .reread

theorem built_collectParams {item : ParserM Node} (h : Built opensArrow item) :
    Built opensArrow (collectParams item) := by
  have hitem : Built opensArrow (parameterItem item) :=
    .bind h fun _ => .plain (plain_modify fun _ => ⟨_, _, _, rfl⟩)
  have htake (mark : Nat) : Built opensArrow (takeParams mark) :=
    .plain ⟨fun _ => ⟨_, _, _, rfl⟩, fun hm => by cases hm⟩
  exact .bind built_get fun _ =>
    .bind (Elementary.closedList built_elementary .closeParen hitem) fun _ =>
      .bind (Elementary.require built_elementary .arrow) fun _ => htake _

theorem built_compositional : Compositional (fun {α} (m : ParserM α) => Built opensArrow m) where
  toElementary := built_elementary
  modifier := .modifier
  within frame _ h := .within frame h
  collectParams := built_collectParams
  handOver frame _ _ h :=
    .bind (.plain (plain_modify fun _ => ⟨_, _, _, rfl⟩)) fun _ =>
      .within frame (.bind (.plain plain_takeOperand) h)

theorem built_sub (room : Nat) {frame : Frame} (entry : Goal) (hf : frame.isEnclosing = true) :
    Built opensArrow (within frame (goal opensArrow room entry)) :=
  Compositional.goal built_compositional .asks room entry hf

theorem built_programBody (room rounds : Nat) :
    Built opensArrow (programBody (goal opensArrow room) rounds) := by
  induction rounds with
  | zero => exact Elementary.outOfSteps built_elementary
  | succ rounds ih =>
    refine .bind (Elementary.current built_elementary) fun word => ?_
    split
    · exact built_pure []
    · exact .bind (built_sub room .statement rfl) fun _ => .bind (.plain plain_settleOperands)
        fun _ => .bind ih fun _ => built_pure _

section Keeping

variable {Kept : Parser → Parser → Prop} (laws : Lasting Kept)
include laws

theorem Plain.keeping {m : ParserM α} (h : Plain m) : Keeping Kept m := by
  intro parser
  obtain ⟨operands, pendingParams, diagnostics, hm⟩ := h.leaves parser
  rw [hm]
  exact laws.buffers parser operands pendingParams diagnostics

/-- Every step keeps up what the smallest steps do, by induction on how it is built. -/
theorem Built.keeping (harrow : Keeping Kept opensArrow) {m : ParserM α} (h : Built opensArrow m) :
    Keeping Kept m := by
  induction h with
  | plain h => exact h.keeping laws
  | next _ => exact fun parser => laws.next parser _
  | reread _ => exact fun parser => laws.reread parser _
  | modifier sameLine => exact laws.tryModifier sameLine
  | asks => exact harrow
  | within frame _ ih => exact laws.within frame ih
  | bind _ _ ihm ihf => exact laws.bind ihm ihf

/-- What the smallest steps keep up holds between the beginning of a step and any of its moments. -/
theorem Makes.keeping (henter : ∀ parser context, Kept parser { parser with context })
    (harrow : Keeping Kept opensArrow) {m : ParserM α} {parser between : Parser} {moment : Moment}
    (h : Makes opensArrow m parser moment between) : Kept parser between := by
  induction h with
  | inside _ _ ih => exact laws.trans (henter _ _) ih
  | first _ _ ih => exact ih
  | later hm hok _ ih => exact laws.trans ((hm.keeping laws harrow).of_ok hok) ih
  | _ => exact laws.refl _

end Keeping

theorem Built.context (harrow : Keeping SameSetting opensArrow) {m : ParserM α}
    (h : Built opensArrow m) (parser : Parser) : (stateOf (m parser)).context = parser.context :=
  (h.keeping sameSetting_lasting harrow parser).context

/-- A parse reads in the modes of the rules. -/
theorem Makes.mode {m : ParserM α} {parser between : Parser} {moment : Moment}
    (h : Makes opensArrow m parser moment between) {mode : LexerMode}
    (hm : moment = .reads mode ∨ moment = .rereads mode) : mode ∈ ruleModes := by
  induction h with
  | next hin | reread hin => grind
  | modifier | notModifier =>
    have hin : LexerMode.default ∈ ruleModes ∧ LexerMode.names ∈ ruleModes := by
      simp [ruleModes]
    grind
  | inside _ _ ih => exact ih hm
  | first _ _ ih => exact ih hm
  | later _ _ _ ih => exact ih hm
  | _ => grind

end ParserM

namespace Parser

open ParserM

end Parser

end ScriptTree
