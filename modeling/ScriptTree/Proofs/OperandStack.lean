import ScriptTree.Proofs.RuleLaws

/-!
The discipline of the two buffers of a parse: the operands put aside and the parameters put down.

A rule leaves both buffers as it found them, and what lies in them when it starts has no influence on
what it does. Only a rule that fails can leave something behind, on top of what was there.
-/

namespace ScriptTree

/-- What lies in the buffers below a parse, and how operands left over are treated. -/
structure Ground where
  /-- Operands further down. -/
  operands : List Node
  /-- Parameters further down. -/
  pendingParams : List Node
  /-- Whether operands that no construct takes are an error. -/
  strict : Bool

/-- A parser with its buffers on top of others. -/
def Parser.over (parser : Parser) (ground : Ground) : Parser :=
  { parser with
    operands := parser.operands ++ ground.operands
    pendingParams := parser.pendingParams ++ ground.pendingParams
    options := { parser.options with strictOperandStack := ground.strict } }

namespace ParserM

variable {α β : Type}

/-- What a step comes to, with the buffers on top of others. -/
def resultOver (ground : Ground) :
    EStateM.Result Failure Parser α → EStateM.Result Failure Parser α
  | .ok a parser => .ok a (parser.over ground)
  | .error failure parser => .error failure (parser.over ground)

/-- A step that does the same whatever lies below in the buffers. -/
def Framed (m : ParserM α) : Prop :=
  ∀ parser ground, m (parser.over ground) = resultOver ground (m parser)

/-- A step that, if it succeeds, leads from a state to a related one. -/
def Leading (Related : Parser → Parser → Prop) (m : ParserM α) : Prop :=
  ∀ {parser a after}, m parser = .ok a after → Related parser after

/-- The buffers are the same. -/
def SameBuffers (parser after : Parser) : Prop :=
  after.operands = parser.operands ∧ after.pendingParams = parser.pendingParams

/-- No operand is taken or put aside, and parameters are only put down. -/
def MoreParams (parser after : Parser) : Prop :=
  after.operands = parser.operands ∧ ∃ params, after.pendingParams = params ++ parser.pendingParams

/-- A step that leaves the buffers as it finds them, and does not depend on them. -/
structure Confined (m : ParserM α) : Prop where
  framed : Framed m
  keeping : Leading SameBuffers m

theorem ok_of_bind_ok {m : ParserM α} {f : α → ParserM β} {parser after : Parser} {b : β}
    (h : (m >>= f) parser = .ok b after) :
    ∃ a between, m parser = .ok a between ∧ f a between = .ok b after := by
  rw [run_bind] at h
  cases hm : m parser with
  | ok a between => exact ⟨a, between, rfl, by simpa only [hm] using h⟩
  | error failure between => simp only [hm, reduceCtorEq] at h

/-- A relation that a change of the token stream keeps up, and that can be chained, holds between
the ends of every elementary step. -/
theorem leading_elementary {Related : Parser → Parser → Prop} (hrefl : ∀ parser, Related parser parser)
    (htrans : ∀ {p q r}, Related p q → Related q r → Related p r)
    (hlexer : ∀ parser lexer, Related parser { parser with lexer }) :
    Elementary (fun {α} (m : ParserM α) => Leading Related m) where
  pure _ := fun h => by cases h; exact hrefl _
  bind hm hf := fun h => by
    obtain ⟨a, between, h1, h2⟩ := ok_of_bind_ok h
    exact htrans (hm h1) (hf a h2)
  current := fun h => by cases h; exact hrefl _
  surroundings := fun h => by cases h; exact hrefl _
  budget := fun h => by cases h; exact hrefl _
  outOfSteps := fun h => by cases h
  unexpected := fun h => by cases h
  wanting _ := fun h => by cases h
  complaint _ := fun h => by cases h
  next _ := fun h => by cases h; exact hlexer _ _
  reread _ := fun h => by cases h; exact hlexer _ _

theorem sameBuffers_elementary : Elementary (fun {α} (m : ParserM α) => Leading SameBuffers m) :=
  leading_elementary (fun _ => ⟨rfl, rfl⟩) (fun h h' => ⟨h'.1.trans h.1, h'.2.trans h.2⟩)
    fun _ _ => ⟨rfl, rfl⟩

theorem moreParams_elementary : Elementary (fun {α} (m : ParserM α) => Leading MoreParams m) := by
  refine leading_elementary (fun _ => ⟨rfl, [], rfl⟩) ?_ fun _ _ => ⟨rfl, [], rfl⟩
  rintro p q r ⟨ho, params, hp⟩ ⟨ho', params', hp'⟩
  exact ⟨ho'.trans ho, params' ++ params, by rw [hp', hp, List.append_assoc]⟩

theorem framed_bind {m : ParserM α} {f : α → ParserM β} (hm : Framed m) (hf : ∀ a, Framed (f a)) :
    Framed (m >>= f) := by
  intro parser ground
  rw [run_bind, run_bind, hm parser ground]
  cases m parser with
  | ok a between => exact hf a between ground
  | error failure between => rfl

theorem framed_reject {error : Parser → SyntaxError}
    (h : ∀ parser ground, error (parser.over ground) = error parser) :
    Framed (reject error : ParserM α) := by
  intro parser ground
  simp only [run_reject, resultOver, h]

theorem framed_elementary : Elementary @Framed where
  pure _ _ _ := rfl
  bind := framed_bind
  current _ _ := rfl
  surroundings _ _ := rfl
  budget _ _ := rfl
  outOfSteps _ _ := rfl
  unexpected := framed_reject fun _ _ => rfl
  wanting _ := framed_reject fun _ _ => rfl
  complaint _ := framed_reject fun _ _ => rfl
  next _ _ _ := rfl
  reread _ _ _ := rfl

theorem framed_within (frame : Frame) {m : ParserM α} (h : Framed m) : Framed (within frame m) := by
  intro parser ground
  have hm := h { parser with context := frame :: parser.context } ground
  -- the limit is on the constructs in progress, and those do not lie in the buffers
  by_cases hd : parser.options.maxDepth ≤ parser.context.length
  · have hd' : (parser.over ground).options.maxDepth ≤ (parser.over ground).context.length := hd
    rw [run_within_full hd, run_within_full hd']
    rfl
  · have hd' := Nat.not_le.mp hd
    have hd'' : (parser.over ground).context.length < (parser.over ground).options.maxDepth := hd'
    rw [run_within hd', run_within hd'']
    change (match m (Parser.over { parser with context := frame :: parser.context } ground) with
      | .ok a after => _
      | .error failure after => _) = _
    rw [hm]
    cases m { parser with context := frame :: parser.context } <;> rfl

theorem run_handOver_full {frame : Frame} {operand : Node} {step : Node → ParserM Node}
    {parser : Parser} (h : parser.options.maxDepth ≤ parser.context.length) :
    handOver frame operand step parser = .error (.rejected (.nestingTooDeep
      parser.options.maxDepth parser.lexer.marker (parser.locate parser.lexer.marker)))
      { parser with operands := operand :: parser.operands } := by
  simp only [handOver, run_bind, run_putOperand, within, if_pos h]
  rfl

theorem framed_handOver (frame : Frame) (operand : Node) {step : Node → ParserM Node}
    (h : ∀ x, Framed (step x)) : Framed (handOver frame operand step) := by
  intro parser ground
  by_cases hd : parser.options.maxDepth ≤ parser.context.length
  · have hd' : (parser.over ground).options.maxDepth ≤ (parser.over ground).context.length := hd
    rw [run_handOver_full hd, run_handOver_full hd']
    rfl
  · have hd' := Nat.not_le.mp hd
    have hd'' : (parser.over ground).context.length < (parser.over ground).options.maxDepth := hd'
    rw [run_handOver hd', run_handOver hd'']
    exact framed_within frame (h operand) parser ground

theorem framed_tryModifier (sameLine : Bool) : Framed (tryModifier sameLine) := by
  intro parser ground
  have hl : (parser.over ground).lexer = parser.lexer := rfl
  rw [run_tryModifier, run_tryModifier, hl]
  split <;> rfl

theorem sameBuffers_tryModifier (sameLine : Bool) : Leading SameBuffers (tryModifier sameLine) := by
  intro parser a after h
  rw [run_tryModifier] at h
  split at h <;> cases h <;> exact ⟨rfl, rfl⟩

theorem sameBuffers_within (frame : Frame) {m : ParserM α} (h : Leading SameBuffers m) :
    Leading SameBuffers (within frame m) := by
  intro parser a after hm
  by_cases hd : parser.options.maxDepth ≤ parser.context.length
  · rw [run_within_full hd] at hm
    cases hm
  · rw [run_within (Nat.not_le.mp hd)] at hm
    cases hs : m { parser with context := frame :: parser.context } with
    | ok b between =>
      simp only [hs] at hm
      cases hm
      -- leaving the construct changes no buffer
      have hb : SameBuffers { parser with context := frame :: parser.context } between := h hs
      exact hb
    | error failure between => simp only [hs, reduceCtorEq] at hm

theorem sameBuffers_handOver (frame : Frame) (operand : Node) {step : Node → ParserM Node}
    (h : ∀ x, Leading SameBuffers (step x)) : Leading SameBuffers (handOver frame operand step) := by
  intro parser a after hm
  by_cases hd : parser.options.maxDepth ≤ parser.context.length
  · rw [run_handOver_full hd] at hm
    cases hm
  · rw [run_handOver (Nat.not_le.mp hd)] at hm
    exact sameBuffers_within frame (h operand) hm

/-- The items of an arrow function's parameter list, each put down when it is read. -/
def parameterItem (item : ParserM Node) : ParserM Unit := do
  let parameter ← item
  modify fun parser => { parser with pendingParams := parameter :: parser.pendingParams }

theorem framed_parameterItem {item : ParserM Node} (h : Framed item) :
    Framed (parameterItem item) :=
  framed_bind h fun _ _ _ => rfl

theorem moreParams_parameterItem {item : ParserM Node} (h : Leading SameBuffers item) :
    Leading MoreParams (parameterItem item) := by
  intro parser a after hm
  obtain ⟨parameter, between, h1, h2⟩ := ok_of_bind_ok hm
  cases h2
  exact ⟨(h h1).1, [parameter], by rw [← (h h1).2]; rfl⟩

/-- The parameter list as far as the arrow. -/
def parameterList (item : ParserM Node) : ParserM Unit := do
  let _ ← closedList .closeParen (parameterItem item)
  require .arrow

theorem run_takeParams (mark : Nat) (parser : Parser) : takeParams mark parser =
    .ok (parser.pendingParams.take (parser.pendingParams.length - mark)).reverse { parser with
      pendingParams := parser.pendingParams.drop (parser.pendingParams.length - mark) } := rfl

theorem run_collectParams (item : ParserM Node) (parser : Parser) : collectParams item parser =
    (parameterList item >>= fun _ => takeParams parser.pendingParams.length) parser := by
  simp only [collectParams, parameterList, parameterItem, bind_assoc]
  rfl

theorem confined_collectParams {item : ParserM Node} (h : Confined item) :
    Confined (collectParams item) := by
  have hf : Framed (parameterList item) :=
    framed_bind (Elementary.closedList framed_elementary _ (framed_parameterItem h.framed)) fun _ =>
      Elementary.require framed_elementary .arrow
  have hg : Leading MoreParams (parameterList item) :=
    Elementary.bind moreParams_elementary
      (Elementary.closedList moreParams_elementary _ (moreParams_parameterItem h.keeping)) fun _ =>
      Elementary.require moreParams_elementary .arrow
  refine ⟨fun parser ground => ?_, fun {parser a after} hm => ?_⟩
  · rw [run_collectParams, run_collectParams, run_bind, run_bind, hf parser ground]
    cases hp : parameterList item parser with
    | error failure between => rfl
    | ok _ between =>
      obtain ⟨-, params, hb⟩ := hg hp
      -- as many parameters are taken up as were put down, above the ground as without it
      have hc : between.pendingParams.length - parser.pendingParams.length = params.length := by
        rw [hb, List.length_append, Nat.add_sub_cancel]
      have hc' : (between.over ground).pendingParams.length -
          (parser.over ground).pendingParams.length = params.length := by
        simp only [Parser.over, hb, List.length_append]
        omega
      simp only [resultOver, run_takeParams, hc, hc']
      simp [Parser.over, hb]
  · rw [run_collectParams] at hm
    obtain ⟨_, between, h1, h2⟩ := ok_of_bind_ok hm
    -- what is left after taking up the parameters is what lay below the first of them
    obtain ⟨ho, params, hb⟩ := hg h1
    rw [run_takeParams] at h2
    cases h2
    refine ⟨ho, ?_⟩
    simp [hb]

theorem confined_arrowAhead : Confined arrowAhead := by
  refine ⟨fun parser ground => ?_, fun {parser a after} hm => ?_⟩
  -- reading ahead uses a token stream of its own and the answers kept so far
  · have hl : (parser.over ground).lexer = parser.lexer := rfl
    have ha : (parser.over ground).arrowAnswers = parser.arrowAnswers := rfl
    have hb : lookAhead (parser.over ground) = lookAhead parser := rfl
    rw [run_arrowAhead, run_arrowAhead, hl, ha, hb]
    cases parser.lexer.current with
    | none => rfl
    | some word =>
      cases hw : parser.arrowAnswers.lookup word.start with
      | none => simp only [hw]; rfl
      | some answer => simp only [hw]; rfl
  · rw [run_arrowAhead] at hm
    split at hm
    · cases hm; exact ⟨rfl, rfl⟩
    · split at hm <;> cases hm <;> exact ⟨rfl, rfl⟩

/-- Every grammar rule is confined, since its parts are. -/
theorem confined_compositional : Compositional @Confined where
  pure a := ⟨framed_elementary.pure a, sameBuffers_elementary.pure a⟩
  bind hm hf := ⟨framed_elementary.bind hm.framed fun a => (hf a).framed,
    sameBuffers_elementary.bind hm.keeping fun a => (hf a).keeping⟩
  current := ⟨framed_elementary.current, sameBuffers_elementary.current⟩
  surroundings := ⟨framed_elementary.surroundings, sameBuffers_elementary.surroundings⟩
  budget := ⟨framed_elementary.budget, sameBuffers_elementary.budget⟩
  outOfSteps := ⟨framed_elementary.outOfSteps, sameBuffers_elementary.outOfSteps⟩
  unexpected := ⟨framed_elementary.unexpected, sameBuffers_elementary.unexpected⟩
  wanting w := ⟨framed_elementary.wanting w, sameBuffers_elementary.wanting w⟩
  complaint h := ⟨framed_elementary.complaint h, sameBuffers_elementary.complaint h⟩
  next hm := ⟨framed_elementary.next hm, sameBuffers_elementary.next hm⟩
  reread hm := ⟨framed_elementary.reread hm, sameBuffers_elementary.reread hm⟩
  modifier sameLine := ⟨framed_tryModifier sameLine, sameBuffers_tryModifier sameLine⟩
  within frame _ h := ⟨framed_within frame h.framed, sameBuffers_within frame h.keeping⟩
  collectParams h := confined_collectParams h
  handOver frame operand _ h := ⟨framed_handOver frame operand fun x => (h x).framed,
    sameBuffers_handOver frame operand fun x => (h x).keeping⟩

end ParserM

end ScriptTree
