import ScriptTree.Proofs.Moments

/-!
Two parses side by side.

A relation between the states of two parses that token reading keeps up, at the moments at which it
can, is kept up by all rules, and the two parses come to the same result. What the first parse may
fail of without the second following it is a matter of the relation; running out of steps is always
among it, so the second parse may have more of them, and more room for constructs.
-/

namespace ScriptTree

namespace ParserM

variable {α β : Type}

/-- What two parses that go side by side have in common, whatever relates them. -/
structure SideBySide (parser parser' : Parser) : Prop where
  context : parser'.context = parser.context
  operands : parser'.operands = parser.operands
  pendingParams : parser'.pendingParams = parser.pendingParams
  strict : parser'.options.strictOperandStack = parser.options.strictOperandStack
  depth : parser.options.maxDepth ≤ parser'.options.maxDepth
  budget : parser.budget ≤ parser'.budget
  exhausted : parser'.lexer.exhausted = parser.lexer.exhausted
  current : (parser.lexer.current = none ∧ parser'.lexer.current = none) ∨
    ∃ word start stop, parser.lexer.current = some word ∧
      parser'.lexer.current = some { word with start, stop }

/-- Two parses come to the same, or the first fails in a way that the second need not follow. -/
def Agree (Related : Parser → Parser → Prop) (Lost : Failure → Prop) :
    EStateM.Result Failure Parser α → EStateM.Result Failure Parser α → Prop
  | .ok a after, .ok a' after' => a' = a ∧ Related after after'
  | .ok _ _, .error _ _ => False
  | .error failure _, .ok _ _ => Lost failure
  | .error failure _, .error failure' _ => Lost failure ∨ failure' = failure

/-- What a step comes to, without the state that it leaves behind. -/
def resultOf : EStateM.Result Failure Parser α → Except Failure α
  | .ok a _ => .ok a
  | .error failure _ => .error failure

theorem Agree.same {Related : Parser → Parser → Prop} {Lost : Failure → Prop}
    {result result' : EStateM.Result Failure Parser α} (h : Agree Related Lost result result') :
    resultOf result' = resultOf result ∨ ∃ failure, resultOf result = .error failure ∧ Lost failure := by
  cases result with
  | ok a after =>
    cases result' with
    | ok a' after' => exact .inl (congrArg Except.ok h.1)
    | error failure' after' => exact h.elim
  | error failure after =>
    cases result' with
    | ok a' after' => exact .inr ⟨failure, rfl, h⟩
    | error failure' after' =>
      rcases h with hlost | hsame
      · exact .inr ⟨failure, rfl, hlost⟩
      · exact .inl (congrArg Except.error hsame)

theorem Agree.of_lost {Related : Parser → Parser → Prop} {Lost : Failure → Prop} {failure : Failure}
    (h : Lost failure) (after : Parser) (result : EStateM.Result Failure Parser α) :
    Agree Related Lost (.error failure after) result := by
  cases result with
  | ok a after' => exact h
  | error failure' after' => exact .inl h

/-- A relation between the states of two parses that lets them go side by side, as long as what
happens at the moments of the first is fine. -/
structure Simulation (Related : Parser → Parser → Prop) (Lost : Failure → Prop)
    (Fine : Moment → Parser → Prop) : Prop where
  beside : ∀ {parser parser'}, Related parser parser' → SideBySide parser parser'
  outOfSteps : Lost .outOfSteps
  /-- Errors speak of the token stream, so those that count need the same one. -/
  errors : ∀ {parser parser'}, Related parser parser' →
    (∀ error, Lost (.rejected error)) ∨ parser'.lexer = parser.lexer
  /-- The error for too many constructs speaks of their limit, too. -/
  full : ∀ {parser parser'}, Related parser parser' →
    (∀ limit offset location, Lost (.rejected (.nestingTooDeep limit offset location))) ∨
      parser'.options.maxDepth = parser.options.maxDepth
  buffers : ∀ {parser parser'} operands pendingParams diagnostics diagnostics',
    Related parser parser' →
      Related { parser with operands, pendingParams, diagnostics }
        { parser' with operands, pendingParams, diagnostics := diagnostics' }
  enter : ∀ {parser parser'} (frame : Frame), Related parser parser' →
    Related { parser with context := frame :: parser.context }
      { parser' with context := frame :: parser'.context }
  leave : ∀ {parser parser'}, Related parser parser' →
    Related { parser with context := parser.context.tail }
      { parser' with context := parser'.context.tail }
  next : ∀ {parser parser' mode}, mode ∈ ruleModes → Related parser parser' →
    Fine (.reads mode) parser → Related { parser with lexer := parser.lexer.next mode }
      { parser' with lexer := parser'.lexer.next mode }
  reread : ∀ {parser parser' mode}, mode ∈ ruleModes → Related parser parser' →
    Fine (.rereads mode) parser → Related { parser with lexer := parser.lexer.reread mode }
      { parser' with lexer := parser'.lexer.reread mode }

/-- All moments of a step are fine. -/
def AllFine (opensArrow : ParserM Bool) (Fine : Moment → Parser → Prop) (m : ParserM α)
    (parser : Parser) : Prop :=
  ∀ {moment between}, Makes opensArrow m parser moment between → Fine moment between

/-- Two steps that agree in related states, if all moments of the first are fine. -/
structure Simulated (opensArrow : ParserM Bool) (Related : Parser → Parser → Prop)
    (Lost : Failure → Prop) (Fine : Moment → Parser → Prop) (m m' : ParserM α) : Prop where
  built : Built opensArrow m
  agree : ∀ {parser parser'}, Related parser parser' → AllFine opensArrow Fine m parser →
    Agree Related Lost (m parser) (m' parser')

namespace Simulation

variable {opensArrow : ParserM Bool} {Related : Parser → Parser → Prop} {Lost : Failure → Prop}
  {Fine : Moment → Parser → Prop} (laws : Simulation Related Lost Fine)

section Steps

theorem pure (a : α) : Simulated opensArrow Related Lost Fine (pure a : ParserM α) (pure a) where
  built := built_pure a
  agree h _ := ⟨rfl, h⟩

theorem bind {m m' : ParserM α} {f f' : α → ParserM β}
    (hm : Simulated opensArrow Related Lost Fine m m')
    (hf : ∀ a, Simulated opensArrow Related Lost Fine (f a) (f' a)) :
    Simulated opensArrow Related Lost Fine (m >>= f) (m' >>= f') where
  built := .bind hm.built fun a => (hf a).built
  agree {parser parser'} h fine := by
    have ha := hm.agree h fun hmakes => fine (.first hmakes fun a => (hf a).built)
    rw [run_bind, run_bind]
    cases hr : m parser with
    | ok a after =>
      rw [hr] at ha
      cases hr' : m' parser' with
      | ok a' after' =>
        rw [hr'] at ha
        obtain ⟨rfl, hafter⟩ := ha
        exact (hf _).agree hafter fun hmakes => fine (.later hm.built hr hmakes)
      | error failure' after' =>
        rw [hr'] at ha
        exact ha.elim
    | error failure after =>
      rw [hr] at ha
      cases hr' : m' parser' with
      | error failure' after' =>
        rw [hr'] at ha
        exact ha
      | ok a' after' =>
        rw [hr'] at ha
        -- the first parse has failed in a way of its own, whatever the second goes on to do
        exact .of_lost ha after (f' a' after')

/-- A step that looks at the state, and goes on alike in related states. -/
theorem look {γ : Type} {read : ParserM γ} {value : Parser → γ}
    (hread : ∀ parser, read parser = .ok (value parser) parser) {f f' : γ → ParserM β}
    (hbuilt : ∀ a, Built opensArrow (f a))
    (hf : ∀ {parser parser'}, Related parser parser' →
      Simulated opensArrow Related Lost Fine (f (value parser)) (f' (value parser'))) :
    Simulated opensArrow Related Lost Fine (read >>= f) (read >>= f') where
  built := .bind (.plain (plain_look fun parser => ⟨_, hread parser⟩)) hbuilt
  agree {parser parser'} h fine := by
    have hb : Built opensArrow read := .plain (plain_look fun parser => ⟨_, hread parser⟩)
    rw [run_bind, run_bind, hread, hread]
    exact (hf h).agree h fun hmakes => fine (.later hb (hread parser) hmakes)

include laws

theorem reject {error : Parser → SyntaxError} (hcode : ∀ parser, (error parser).code < 1200)
    (herror : ∀ {parser parser' : Parser}, parser'.lexer = parser.lexer →
      error parser' = error parser) :
    Simulated opensArrow Related Lost Fine (reject error : ParserM α) (reject error) where
  built := built_reject hcode
  agree {parser parser'} h _ := by
    rcases laws.errors h with hlost | hlexer
    · exact .inl (hlost _)
    · exact .inr (congrArg Failure.rejected (herror hlexer))

theorem elementary : PairElementary (fun {α} (m m' : ParserM α) =>
    Simulated opensArrow Related Lost Fine m m') where
  pure := pure
  bind := bind
  current {β f f'} hnone hsome := by
    refine look (fun _ => rfl) (fun word => ?_) fun {parser parser'} h => ?_
    · cases word with
      | none => exact hnone.built
      | some word => exact (hsome word word.start word.stop).built
    · rcases (laws.beside h).current with ⟨hc, hc'⟩ | ⟨word, start, stop, hc, hc'⟩
      · rw [hc, hc']
        exact hnone
      · rw [hc, hc']
        exact hsome word start stop
  surroundings {β f f'} h := by
    refine look (fun _ => rfl) (fun context => (h (.refl context)).built) fun hr => ?_
    rw [(laws.beside hr).context]
    exact h (.refl _)
  budget h := look (fun _ => rfl) (fun _ => (h le_rfl).built) fun hr => h (laws.beside hr).budget
  outOfSteps {_ m} :=
    { built := .plain ⟨fun _ => ⟨_, _, _, rfl⟩, fun hm => by cases hm⟩
      agree := fun _ _ => .of_lost laws.outOfSteps _ _ }
  unexpected := laws.reject unexpected_code fun {parser parser'} h => by
    simp only [Parser.unexpected, Parser.invalidCharacter, Parser.locate, h]
  wanting wanted := laws.reject (fun parser => wanting_code parser wanted) fun {parser parser'} h => by
    simp only [Parser.wanting, Parser.invalidCharacter, Parser.locate, h]
  complaint hm := laws.reject (fun parser => complaint_code parser hm) fun {parser parser'} h => by
    simp only [Parser.complaint, Parser.unexpected, Parser.invalidCharacter, Parser.locate, h]
  next hm :=
    { built := .next hm
      agree := fun h fine => ⟨rfl, laws.next hm h (fine (.next hm))⟩ }
  reread hm :=
    { built := .reread hm
      agree := fun h fine => ⟨rfl, laws.reread hm h (fine (.reread hm))⟩ }

/-- A step that looks at the constructs in progress. -/
theorem contextOnly (value : Context → α) {m : ParserM α}
    (hm : ∀ parser, m parser = .ok (value parser.context) parser) :
    Simulated opensArrow Related Lost Fine m m where
  built := .plain (plain_look fun parser => ⟨_, hm parser⟩)
  agree {parser parser'} h _ := by
    rw [hm, hm, (laws.beside h).context]
    exact ⟨rfl, h⟩

theorem within (frame : Frame) {m m' : ParserM α}
    (h : Simulated opensArrow Related Lost Fine m m') :
    Simulated opensArrow Related Lost Fine (within frame m) (within frame m') where
  built := .within frame h.built
  agree {parser parser'} hr fine := by
    have hb := laws.beside hr
    have hc := hb.context
    have hd := hb.depth
    by_cases hfull : parser.options.maxDepth ≤ parser.context.length
    · rw [run_within_full hfull]
      rcases laws.full hr with hlost | hsame
      · exact .of_lost (hlost _ _ _) _ _
      · have hfull' : parser'.options.maxDepth ≤ parser'.context.length := by
          rw [hsame, hc]
          exact hfull
        rw [run_within_full hfull']
        rcases laws.errors hr with hlost | hlexer
        · exact .inl (hlost _)
        · right
          simp only [Parser.locate, hlexer, hsame]
    · -- the second parse enters the construct, too, since its limit is no lower
      have hlt := Nat.not_le.mp hfull
      have hlt' : parser'.context.length < parser'.options.maxDepth := by
        rw [hc]
        omega
      have ha := h.agree (laws.enter frame hr) fun hmakes => fine (.inside hlt hmakes)
      rw [run_within hlt, run_within hlt']
      cases hm : m { parser with context := frame :: parser.context } with
      | ok a after =>
        rw [hm] at ha
        cases hm' : m' { parser' with context := frame :: parser'.context } with
        | ok a' after' =>
          rw [hm'] at ha
          exact ⟨ha.1, laws.leave ha.2⟩
        | error failure' after' =>
          rw [hm'] at ha
          exact ha
      | error failure after =>
        rw [hm] at ha
        cases hm' : m' { parser' with context := frame :: parser'.context } with
        | ok a' after' =>
          rw [hm'] at ha
          exact ha
        | error failure' after' =>
          rw [hm'] at ha
          exact ha

theorem tryModifier (sameLine : Bool) : Simulated opensArrow Related Lost Fine
    (tryModifier sameLine) (tryModifier sameLine) where
  built := .modifier sameLine
  agree {parser parser'} h fine := by
    have hn := laws.next (by simp [ruleModes]) h (fine .modifier)
    have hb := laws.beside hn
    -- whether the word is a modifier is told by the token behind it
    have htells : canStartMember (parser'.lexer.next .default).current =
          canStartMember (parser.lexer.next .default).current ∧
        (parser'.lexer.next .default).current.any Token.afterNewline =
          (parser.lexer.next .default).current.any Token.afterNewline := by
      rcases hb.current with ⟨hc, hc'⟩ | ⟨word, start, stop, hc, hc'⟩
      · exact ⟨by rw [hc, hc'], by rw [hc, hc']⟩
      · rw [hc, hc']
        exact ⟨rfl, rfl⟩
    rw [run_tryModifier, run_tryModifier, htells.1, htells.2]
    split
    · exact ⟨rfl, hn⟩
    · rename_i hnot
      rw [Lexer.next_returnTo_bookmark, Lexer.next_returnTo_bookmark]
      have hback := fine (.notModifier ((run_tryModifier sameLine).trans (if_neg hnot)))
      exact ⟨rfl, laws.reread (by simp [ruleModes]) h hback⟩

/-- A step that only changes the buffers, by what they hold. -/
theorem buffersOnly {m : ParserM α} {value : Parser → α} {operands pendingParams : Parser → List Node}
    (hm : ∀ parser, m parser = .ok (value parser) { parser with
      operands := operands parser, pendingParams := pendingParams parser })
    (h : ∀ {parser parser' : Parser}, parser'.operands = parser.operands →
      parser'.pendingParams = parser.pendingParams → value parser' = value parser ∧
        operands parser' = operands parser ∧ pendingParams parser' = pendingParams parser) :
    Simulated opensArrow Related Lost Fine m m where
  built := .plain
    { leaves := fun parser => ⟨_, _, parser.diagnostics, by rw [hm]; rfl⟩
      spares := fun {parser _ _} he => by rw [hm parser] at he; cases he }
  agree {parser parser'} hr _ := by
    have hb := laws.beside hr
    obtain ⟨hv, ho, hp⟩ := h hb.operands hb.pendingParams
    rw [hm, hm, hv, ho, hp]
    exact ⟨rfl, laws.buffers _ _ _ _ hr⟩

theorem takeOperand : Simulated opensArrow Related Lost Fine takeOperand takeOperand where
  built := .plain plain_takeOperand
  agree {parser parser'} hr _ := by
    have hb := laws.beside hr
    cases ho : parser.operands with
    | cons operand operands =>
      have hk := laws.buffers operands parser.pendingParams parser.diagnostics parser'.diagnostics hr
      rw [run_takeOperand ho, run_takeOperand (hb.operands.trans ho)]
      refine ⟨rfl, ?_⟩
      simpa only [hb.pendingParams] using hk
    | nil =>
      have hmissing {p : Parser} (h : p.operands = []) : ParserM.takeOperand p =
          .error (.rejected (p.complaint .missingLeftOperand)) p := by
        simp only [ParserM.takeOperand, run_bind, run_get, h, run_reject]
      rw [hmissing ho, hmissing (hb.operands.trans ho)]
      rcases laws.errors hr with hlost | hlexer
      · exact .inl (hlost _)
      · right
        simp only [Parser.complaint, Parser.unexpected, Parser.invalidCharacter, Parser.locate, hlexer]

theorem collectParams {item item' : ParserM Node}
    (h : Simulated opensArrow Related Lost Fine item item') :
    Simulated opensArrow Related Lost Fine (collectParams item) (collectParams item') := by
  have hitem : Simulated opensArrow Related Lost Fine (parameterItem item) (parameterItem item') :=
    bind h fun _ => laws.buffersOnly (fun _ => rfl) fun ho hp => ⟨rfl, ho, by rw [hp]⟩
  have hlist : Simulated opensArrow Related Lost Fine (parameterList item) (parameterList item') :=
    bind (laws.elementary.closedList hitem _) fun _ => laws.elementary.require _
  have htake (mark : Nat) :
      Simulated opensArrow Related Lost Fine (takeParams mark) (takeParams mark) :=
    laws.buffersOnly (run_takeParams mark) fun ho hp => ⟨by rw [hp], ho, by rw [hp]⟩
  -- the mark from which on parameters are taken up is the same in both parses
  have hcollect (item : ParserM Node) : ParserM.collectParams item =
      ((fun parser => .ok parser.pendingParams.length parser : ParserM Nat) >>= fun mark =>
        parameterList item >>= fun _ => takeParams mark) := by
    funext parser
    rw [run_collectParams]
    rfl
  rw [hcollect, hcollect]
  refine look (fun _ => rfl) (fun mark => (bind hlist fun _ => htake mark).built) fun hr => ?_
  rw [(laws.beside hr).pendingParams]
  exact bind hlist fun _ => htake _

theorem handOver (frame : Frame) (operand : Node) {step step' : Node → ParserM Node}
    (h : ∀ x, Simulated opensArrow Related Lost Fine (step x) (step' x)) :
    Simulated opensArrow Related Lost Fine (handOver frame operand step)
      (handOver frame operand step') := by
  refine bind (laws.buffersOnly (fun _ => rfl) fun ho hp => ⟨rfl, by rw [ho], hp⟩) fun _ => ?_
  exact laws.within frame (bind laws.takeOperand h)

theorem compositional : PairCompositional (fun {α} (m m' : ParserM α) =>
    Simulated opensArrow Related Lost Fine m m') where
  toPairElementary := laws.elementary
  declaration := laws.contextOnly Context.expectsDeclaration fun _ => rfl
  memberWord _ := bind (laws.elementary.isAt _) fun _ => by
    split
    · exact laws.tryModifier false
    · exact pure false
  asyncWord := bind (laws.elementary.isAtText _ _) fun _ => by
    split
    · exact laws.tryModifier true
    · exact pure false
  within frame _ _ h := laws.within frame h
  collectParams h := laws.collectParams h
  handOver frame operand _ _ h := laws.handOver frame operand h

theorem settleOperands : Simulated opensArrow Related Lost Fine settleOperands settleOperands where
  built := .plain plain_settleOperands
  agree {parser parser'} hr _ := by
    have hb := laws.beside hr
    simp only [ParserM.settleOperands, run_bind, run_get, hb.operands, hb.strict]
    split
    · exact ⟨rfl, hr⟩
    · split
      · rcases laws.errors hr with hlost | hlexer
        · exact .inl (hlost _)
        · right
          simp only [Parser.locate, hlexer]
      · have hk := laws.buffers [] parser.pendingParams
          (parser.diagnostics.add (.ofMessage .droppedOperands [toString parser.operands.length]
            (some ⟨parser.lexer.marker, 0⟩)))
          (parser'.diagnostics.add (.ofMessage .droppedOperands [toString parser.operands.length]
            (some ⟨parser'.lexer.marker, 0⟩))) hr
        refine ⟨rfl, ?_⟩
        simpa only [hb.pendingParams] using hk

end Steps

section Programs

include laws

variable {opensArrow' : ParserM Bool}
  (harrow : Simulated opensArrow Related Lost Fine opensArrow opensArrow')
include harrow

theorem programBody {room room' : Nat} (hroom : room ≤ room') {rounds rounds' : Nat}
    (hrounds : rounds ≤ rounds') : Simulated opensArrow Related Lost Fine
      (programBody (goal opensArrow room) rounds) (programBody (goal opensArrow' room') rounds') := by
  refine laws.elementary.rounds rfl (fun ih => ?_) hrounds
  have hgoes (operand : Node) (word : Token) :
      Simulated opensArrow Related Lost Fine (continues operand word) (continues operand word) :=
    laws.contextOnly (fun context => !context.isComplete operand && context.admits operand word)
      fun _ => rfl
  have first := laws.compositional.goal hgoes harrow hroom .statement
    (rfl : (Frame.filling .program .body).isEnclosing = true)
  refine laws.elementary.current (pure []) fun _ _ _ => bind first fun _ => ?_
  exact bind laws.settleOperands fun _ => bind ih fun _ => pure _

/-- Parses that go side by side come to the same. -/
theorem program : Simulated opensArrow Related Lost Fine (program opensArrow)
    (program opensArrow') := by
  refine bind laws.elementary.nextToken fun _ => ?_
  refine look (fun _ => rfl) (fun _ => ?_) fun {parser parser'} hr => ?_
  · refine .bind (built_programBody _ _) fun body => .bind built_get fun after => ?_
    split
    · exact built_pure _
    · exact built_reject invalidCharacter_code
  have hb := laws.beside hr
  refine bind (laws.programBody harrow hb.depth hb.budget) fun body => ?_
  refine look (fun _ => rfl) (fun after => ?_) fun {after after'} hafter => ?_
  · split
    · exact built_pure _
    · exact built_reject invalidCharacter_code
  · rw [(laws.beside hafter).exhausted]
    split
    · exact pure _
    · refine laws.reject invalidCharacter_code fun {parser parser'} h => ?_
      simp only [Parser.invalidCharacter, Parser.locate, h]

end Programs

end Simulation

end ParserM

theorem Parser.run_fst (parser : Parser) :
    parser.run.1 = ParserM.resultOf (ParserM.program ParserM.arrowAhead parser) := by
  unfold Parser.run
  cases ParserM.program ParserM.arrowAhead parser <;> rfl

end ScriptTree
