import ScriptTree.Proofs.BufferDiscipline
import ScriptTree.Proofs.Coverage

/-!
Relations between the state before a parse and the state behind it, whether it succeeds or fails.

A relation that the smallest steps keep up, and that can be chained, is kept up by every grammar
rule and by whole runs. Two such relations are used throughout: the text, the options and the
constructs in progress stay the same, and the token stream stays faithful to its text.
-/

namespace ScriptTree

namespace ParserM

variable {α β : Type}

/-- The state that a step leaves behind. -/
def stateOf : EStateM.Result Failure Parser α → Parser
  | .ok _ parser => parser
  | .error _ parser => parser

/-- A step that leads from every state to a related one. -/
def Keeping (Kept : Parser → Parser → Prop) (m : ParserM α) : Prop :=
  ∀ parser, Kept parser (stateOf (m parser))

/-- A relation that the smallest steps keep up and that can be chained. -/
structure Lasting (Kept : Parser → Parser → Prop) : Prop where
  refl : ∀ parser, Kept parser parser
  trans : ∀ {parser between after}, Kept parser between → Kept between after → Kept parser after
  next : ∀ parser mode, Kept parser { parser with lexer := parser.lexer.next mode }
  reread : ∀ parser mode, Kept parser { parser with lexer := parser.lexer.reread mode }
  buffers : ∀ parser operands pendingParams diagnostics,
    Kept parser { parser with operands, pendingParams, diagnostics }
  leave : ∀ {frame : Frame} {parser after : Parser},
    Kept { parser with context := frame :: parser.context } after →
      Kept parser { after with context := after.context.tail }

theorem Keeping.of_ok {Kept : Parser → Parser → Prop} {m : ParserM α} (h : Keeping Kept m)
    {parser after : Parser} {a : α} (hm : m parser = .ok a after) : Kept parser after := by
  have hk := h parser
  rw [hm] at hk
  exact hk

namespace Lasting

variable {Kept : Parser → Parser → Prop} (laws : Lasting Kept)
include laws

theorem bind {m : ParserM α} {f : α → ParserM β} (hm : Keeping Kept m)
    (hf : ∀ a, Keeping Kept (f a)) : Keeping Kept (m >>= f) := by
  intro parser
  have hk := hm parser
  rw [run_bind]
  cases hr : m parser with
  | ok a between =>
    rw [hr] at hk
    exact laws.trans hk (hf a between)
  | error failure between =>
    rw [hr] at hk
    exact hk

theorem elementary : Elementary (fun {α} (m : ParserM α) => Keeping Kept m) where
  pure _ parser := laws.refl parser
  bind := laws.bind
  current parser := laws.refl parser
  surroundings parser := laws.refl parser
  budget parser := laws.refl parser
  outOfSteps parser := laws.refl parser
  unexpected parser := laws.refl parser
  wanting _ parser := laws.refl parser
  complaint _ parser := laws.refl parser
  next {mode} _ parser := laws.next parser mode
  reread {mode} _ parser := laws.reread parser mode

theorem within (frame : Frame) {m : ParserM α} (h : Keeping Kept m) :
    Keeping Kept (within frame m) := by
  intro parser
  by_cases hd : parser.options.maxDepth ≤ parser.context.length
  · rw [run_within_full hd]
    exact laws.refl parser
  · have hk := h { parser with context := frame :: parser.context }
    rw [run_within (Nat.not_le.mp hd)]
    cases hr : m { parser with context := frame :: parser.context } with
    | ok a after =>
      rw [hr] at hk
      exact laws.leave hk
    | error failure after =>
      rw [hr] at hk
      exact laws.leave hk

theorem tryModifier (sameLine : Bool) : Keeping Kept (tryModifier sameLine) := by
  intro parser
  rw [run_tryModifier]
  split
  · exact laws.next parser .default
  -- the stream is set back to where it was before the token is read again
  · rw [Lexer.next_returnTo_bookmark]
    exact laws.reread parser .names

theorem collectParams {item : ParserM Node} (h : Keeping Kept item) :
    Keeping Kept (collectParams item) := by
  have hput (parser : Parser) (params : List Node) :
      Kept parser { parser with pendingParams := params } :=
    laws.buffers parser parser.operands params parser.diagnostics
  have hitem : Keeping Kept (parameterItem item) := laws.bind h fun _ parser => hput parser _
  have hlist : Keeping Kept (parameterList item) :=
    laws.bind (laws.elementary.closedList _ hitem) fun _ => laws.elementary.require .arrow
  have htake (mark : Nat) : Keeping Kept (takeParams mark) := fun parser => hput parser _
  intro parser
  rw [run_collectParams]
  exact laws.bind hlist (fun _ => htake _) parser

theorem handOver (frame : Frame) (operand : Node) {step : Node → ParserM Node}
    (h : ∀ x, Keeping Kept (step x)) : Keeping Kept (handOver frame operand step) := by
  intro parser
  by_cases hd : parser.options.maxDepth ≤ parser.context.length
  · rw [run_handOver_full hd]
    exact laws.buffers parser _ parser.pendingParams parser.diagnostics
  · rw [run_handOver (Nat.not_le.mp hd)]
    exact laws.within frame (h operand) parser

theorem compositional : Compositional (fun {α} (m : ParserM α) => Keeping Kept m) where
  toElementary := laws.elementary
  modifier := laws.tryModifier
  within := laws.within
  collectParams := laws.collectParams
  handOver := laws.handOver

theorem arrowAhead (h : ∀ parser answers, Kept parser { parser with arrowAnswers := answers }) :
    Keeping Kept arrowAhead := by
  intro parser
  rw [run_arrowAhead]
  split
  · exact laws.refl parser
  · split
    · exact laws.refl parser
    · exact h parser _

variable {opensArrow : ParserM Bool} (harrow : Keeping Kept opensArrow)
include harrow

theorem sub (room : Nat) {frame : Frame} (goal : Goal) (hf : frame.isEnclosing = true) :
    Keeping Kept (ParserM.within frame (ParserM.goal opensArrow room goal)) :=
  laws.compositional.goal harrow room goal hf

omit harrow in
theorem settleOperands : Keeping Kept settleOperands := by
  intro parser
  simp only [ParserM.settleOperands, run_bind, run_get]
  split
  · exact laws.refl parser
  · split
    · exact laws.refl parser
    · exact laws.buffers parser [] parser.pendingParams _

theorem programBody (room rounds : Nat) :
    Keeping Kept (programBody (ParserM.goal opensArrow room) rounds) := by
  induction rounds with
  | zero => exact laws.elementary.outOfSteps
  | succ rounds ih =>
    refine laws.bind laws.elementary.current fun word => ?_
    split
    · exact laws.elementary.pure []
    · refine laws.bind (laws.sub harrow room .statement rfl) fun first => ?_
      exact laws.bind laws.settleOperands fun _ => laws.bind ih fun _ => laws.elementary.pure _

theorem program : Keeping Kept (program opensArrow) := by
  refine laws.bind laws.elementary.nextToken fun _ => ?_
  refine laws.bind (fun parser => laws.refl parser) fun parser => ?_
  refine laws.bind (laws.programBody harrow _ _) fun body => ?_
  refine laws.bind (fun parser => laws.refl parser) fun after => ?_
  split
  · exact laws.elementary.pure _
  · exact fun parser => laws.refl parser

end Lasting

/-- The text, the budget, the options and the constructs in progress are the same. -/
structure SameSetting (parser after : Parser) : Prop where
  source : after.lexer.source = parser.lexer.source
  budget : after.budget = parser.budget
  options : after.options = parser.options
  context : after.context = parser.context

theorem sameSetting_lasting : Lasting SameSetting where
  refl _ := ⟨rfl, rfl, rfl, rfl⟩
  trans h h' := ⟨h'.source.trans h.source, h'.budget.trans h.budget, h'.options.trans h.options,
    h'.context.trans h.context⟩
  next parser mode := ⟨parser.lexer.next_source mode, rfl, rfl, rfl⟩
  reread parser mode := ⟨parser.lexer.reread_source mode, rfl, rfl, rfl⟩
  buffers _ _ _ _ := ⟨rfl, rfl, rfl, rfl⟩
  leave h := ⟨h.source, h.budget, h.options, by rw [h.context]; rfl⟩

theorem sameSetting_arrowAhead : Keeping SameSetting arrowAhead :=
  Lasting.arrowAhead sameSetting_lasting fun _ _ => ⟨rfl, rfl, rfl, rfl⟩

/-- A token stream that was faithful to its text still is. -/
def StillFaithful (parser after : Parser) : Prop :=
  parser.lexer.Faithful → after.lexer.Faithful

theorem stillFaithful_lasting : Lasting StillFaithful where
  refl _ h := h
  trans h h' hf := h' (h hf)
  next _ mode h := h.next mode
  reread _ mode h := h.reread mode
  buffers _ _ _ _ h := h
  leave h := h

theorem stillFaithful_arrowAhead : Keeping StillFaithful arrowAhead :=
  Lasting.arrowAhead stillFaithful_lasting fun _ _ h => h

/-- What a program keeps up, a run keeps up, whether or not it comes to a tree. -/
theorem Keeping.run {Kept : Parser → Parser → Prop} (h : Keeping Kept (program arrowAhead))
    (parser : Parser) : Kept parser parser.run.2 := by
  have hk := h parser
  unfold Parser.run
  cases hp : program arrowAhead parser with
  | ok tree after =>
    rw [hp] at hk
    exact hk
  | error failure after =>
    rw [hp] at hk
    exact hk

end ParserM

namespace Parser

open ParserM

theorem run_faithful {parser : Parser} (h : parser.lexer.Faithful) :
    parser.run.2.lexer.Faithful :=
  (Lasting.program stillFaithful_lasting stillFaithful_arrowAhead).run parser h

theorem run_sameSetting (parser : Parser) : SameSetting parser parser.run.2 :=
  (Lasting.program sameSetting_lasting sameSetting_arrowAhead).run parser

end Parser

end ScriptTree
