import ScriptTree.Grammar.Program

/-!
What the steps of a parse do to its state, one equation for each kind of step, and how an operand
that is being extended passes from one rule to the next.
-/

namespace ScriptTree

/-- Whether a frame is that of a construct around an operand or a statement, and not of an operand
that is being extended. -/
def Frame.isEnclosing : Frame → Bool
  | .extending _ => false
  | _ => true

/-- Whether a frame alone decides if a comma makes a sequence of the operand in it, whatever is around
it. -/
def Frame.settlesCommas (frame : Frame) : Bool :=
  frame.claimsComma || frame.isArgument || frame.isUnaryArgument || frame.opensChain

/-- Whether the rules for operands read a goal in a frame. An operand in one of their frames is told
by the frame how to take a comma, and a statement in one of them starts a chain of its own. -/
def Frame.hosts (frame : Frame) : Goal → Bool
  | .operand => frame.isEnclosing && frame.settlesCommas
  | .statement => frame.isEnclosing && frame.opensChain

theorem Frame.isEnclosing_of_hosts {frame : Frame} {goal : Goal} (h : frame.hosts goal = true) :
    frame.isEnclosing = true := by
  cases goal <;> exact (Bool.and_eq_true_iff.mp h).1

/-- Two contexts in which an opening brace means the same. -/
structure Context.OpensAlike (context context' : Context) : Prop where
  block : context'.expectsBlock = context.expectsBlock
  pattern : context'.expectsPattern = context.expectsPattern

theorem Context.OpensAlike.refl (context : Context) : context.OpensAlike context := ⟨rfl, rfl⟩

namespace ParserM

/-- The constructs in progress. -/
def surroundings : ParserM Context := do return (← get).context

/-- Whether a function or a class is a declaration here. -/
def declarationExpected : ParserM Bool := do return (← surroundings).expectsDeclaration

/-- Whether a token continues an operand here. -/
def continues (operand : Node) (word : Token) : ParserM Bool := do
  let context ← surroundings
  return !context.isComplete operand && context.admits operand word

/-- Items up to a closing parenthesis and the arrow behind it, each put down as a parameter; all of
them are taken up again in the end. -/
def collectParams (item : ParserM Node) : ParserM (List Node) := do
  let mark := (← get).pendingParams.length
  let _ ← closedList .closeParen do
    let parameter ← item
    modify fun parser => { parser with pendingParams := parameter :: parser.pendingParams }
  require .arrow
  takeParams mark

/-- Puts an operand aside, enters a construct and takes up the operand there. -/
def handOver (frame : Frame) (operand : Node) (step : Node → ParserM Node) : ParserM Node := do
  putOperand operand
  within frame (takeOperand >>= step)

section Running

variable {α β : Type} (parser : Parser)

theorem run_bind (m : ParserM α) (f : α → ParserM β) :
    (m >>= f) parser = match m parser with
      | .ok a parser => f a parser
      | .error failure parser => .error failure parser := by
  change EStateM.bind m f parser = _
  unfold EStateM.bind
  cases m parser <;> rfl

@[simp] theorem run_pure (a : α) : (pure a : ParserM α) parser = .ok a parser := rfl

@[simp] theorem run_get : (get : ParserM Parser) parser = .ok parser parser := rfl

@[simp] theorem run_modify (change : Parser → Parser) :
    (modify change : ParserM Unit) parser = .ok () (change parser) := rfl

@[simp] theorem run_current : current parser = .ok parser.lexer.current parser := rfl

@[simp] theorem run_surroundings : surroundings parser = .ok parser.context parser := rfl

@[simp] theorem run_declarationExpected :
    declarationExpected parser = .ok parser.context.expectsDeclaration parser := rfl

@[simp] theorem run_continues (operand : Node) (word : Token) : continues operand word parser =
    .ok (!parser.context.isComplete operand && parser.context.admits operand word) parser := rfl

@[simp] theorem run_budget : budget parser = .ok parser.budget parser := rfl

@[simp] theorem run_reject (error : Parser → SyntaxError) :
    (reject error : ParserM α) parser = .error (.rejected (error parser)) parser := rfl

@[simp] theorem run_modifyLexer (change : Lexer → Lexer) :
    modifyLexer change parser = .ok () { parser with lexer := change parser.lexer } := rfl

@[simp] theorem run_putOperand (operand : Node) :
    putOperand operand parser = .ok () { parser with operands := operand :: parser.operands } := rfl

theorem run_isAt (kind : TokenKind) : isAt kind parser =
    .ok (parser.lexer.current.any fun token => token.kind == kind) parser := rfl

theorem run_isAtText (kind : TokenKind) (text : String) : isAtText kind text parser =
    .ok (parser.lexer.current.any fun token => token.isText kind text) parser := rfl

theorem run_accept (kind : TokenKind) : accept kind parser =
    if (parser.lexer.current.any fun token => token.kind == kind) = true then
      .ok true { parser with lexer := parser.lexer.next .default }
    else .ok false parser := by
  rw [accept, run_bind, run_isAt]
  dsimp only
  split <;> rfl

variable {parser}

theorem run_token {word : Token} (h : parser.lexer.current = some word) :
    token parser = .ok word parser := by
  simp only [token, run_bind, run_current, h, run_pure]

theorem run_takeOperand {operand : Node} {operands : List Node}
    (h : parser.operands = operand :: operands) :
    takeOperand parser = .ok operand { parser with operands } := by
  simp only [takeOperand, run_bind, run_get, h, run_modify, run_pure]

theorem run_within_full {frame : Frame} {m : ParserM α}
    (h : parser.options.maxDepth ≤ parser.context.length) :
    within frame m parser = .error (.rejected (.nestingTooDeep parser.options.maxDepth
      parser.lexer.marker (parser.locate parser.lexer.marker))) parser := by
  simp only [within, if_pos h]

theorem run_within {frame : Frame} {m : ParserM α}
    (h : parser.context.length < parser.options.maxDepth) :
    within frame m parser = match m { parser with context := frame :: parser.context } with
      | .ok a after => .ok a { after with context := after.context.tail }
      | .error failure after => .error failure { after with context := after.context.tail } := by
  unfold within
  exact if_neg (Nat.not_le.mpr h)

theorem run_tryModifier (sameLine : Bool) : tryModifier sameLine parser =
    if canStartMember (parser.lexer.next .default).current &&
        !(sameLine && (parser.lexer.next .default).current.any Token.afterNewline) then
      .ok true { parser with lexer := parser.lexer.next .default }
    else .ok false { parser with
      lexer := ((parser.lexer.next .default).returnTo parser.lexer.bookmark).reread .names } := by
  simp only [tryModifier, run_bind, run_get, nextTokenIn, run_modifyLexer, run_current]
  split <;> rfl

theorem run_arrowAhead : arrowAhead parser = match parser.lexer.current with
    | none => .ok false parser
    | some word => match parser.arrowAnswers.lookup word.start with
      | some answer => .ok answer parser
      | none =>
        let decided := lookAhead parser word.start parser.arrowAnswers
        .ok ((decided.lookup word.start).getD false) { parser with arrowAnswers := decided } := by
  simp only [arrowAhead, run_bind, run_get]
  cases parser.lexer.current with
  | none => rfl
  | some word => cases hl : parser.arrowAnswers.lookup word.start <;> simp only [hl] <;> rfl

theorem within_congr {frame : Frame} {m m' : ParserM α}
    (h : m { parser with context := frame :: parser.context } =
      m' { parser with context := frame :: parser.context }) :
    within frame m parser = within frame m' parser := by
  simp only [within, h]

/-- Handing an operand over amounts to entering the construct with it, unless the limit is reached:
the rule takes up the operand that was put aside for it, and finds the buffers as they were. -/
theorem run_handOver {frame : Frame} {operand : Node} {step : Node → ParserM Node}
    (h : parser.context.length < parser.options.maxDepth) :
    handOver frame operand step parser = within frame (step operand) parser := by
  -- putting aside and taking up cancel out, since entering the construct touches no operand
  have ht : takeOperand
      { parser with context := frame :: parser.context, operands := operand :: parser.operands } =
      .ok operand { parser with context := frame :: parser.context } := run_takeOperand rfl
  simp only [handOver, run_bind, run_putOperand, within, if_neg (Nat.not_le.mpr h), ht]

end Running

theorem canExtend_of_admits {context : Context} {operand : Node} {word : Token}
    (h : context.admits operand word = true) : canExtend word.kind = true := by
  unfold Context.admits at h
  split at h
  · cases h
  · rcases Bool.or_eq_true_iff.mp h with h | h <;> rw [eq_of_beq h] <;> rfl
  · split at h
    -- every kind that is not refused outright is one of those that extend
    iterate 9 rename_i hk; rw [hk]; rfl
    cases h

theorem node_extending {opensArrow : ParserM Bool} {sub : Goal → ParserM Node} {parser : Parser}
    {word : Token} (hc : parser.lexer.current = some word)
    (he : parser.context.isExtending = true) (hw : canExtend word.kind = true) :
    node opensArrow sub parser = (takeOperand >>= extension sub word.kind) parser := by
  simp only [node, run_bind, run_token hc, run_get, he, hw, Bool.and_self, if_true]

/-- A node that starts with the current token, whatever is in progress. -/
def fresh (opensArrow : ParserM Bool) (sub : Goal → ParserM Node) : ParserM Node := do
  let word ← token
  opening opensArrow sub word

/-- An operand that starts with the current token, with all that continues it. -/
def freshOperand (opensArrow : ParserM Bool) (sub : Goal → ParserM Node) : ParserM Node := do
  let first ← fresh opensArrow sub
  extend opensArrow sub first (← budget)

theorem isExtending_of_isEnclosing {frame : Frame} {context : Context}
    (h : frame.isEnclosing = true) : Context.isExtending (frame :: context) = false := by
  cases frame with
  | filling => rfl
  | parentheses => rfl
  | extending => cases h

/-- Where no operand is being extended, a node starts with the current token. -/
theorem node_of_not_extending {opensArrow : ParserM Bool} {sub : Goal → ParserM Node}
    {parser : Parser} (he : parser.context.isExtending = false) :
    node opensArrow sub parser = fresh opensArrow sub parser := by
  cases hc : parser.lexer.current with
  | none => simp only [node, fresh, token, run_bind, run_current, hc, run_reject]
  | some word =>
    have hcond : ¬(parser.context.isExtending && canExtend word.kind) = true := by simp [he]
    simp only [node, fresh, run_bind, run_token hc, run_get, if_neg hcond]

theorem operand_of_not_extending {opensArrow : ParserM Bool} {sub : Goal → ParserM Node}
    {parser : Parser} (he : parser.context.isExtending = false) :
    operand opensArrow sub parser = freshOperand opensArrow sub parser := by
  simp only [operand, freshOperand, run_bind, node_of_not_extending he]

/-- The frame of a construct is none of an operand in progress, so an operand in it starts afresh. -/
theorem within_goal_operand {opensArrow : ParserM Bool} {room : Nat} {frame : Frame}
    (hf : frame.isEnclosing = true) : within frame (goal opensArrow (room + 1) .operand) =
      within frame (freshOperand opensArrow (goal opensArrow room)) :=
  funext fun _ => within_congr (operand_of_not_extending (isExtending_of_isEnclosing hf))

/-- An operand is extended by handing it over to the rule for the current token. -/
theorem extend_succ (opensArrow : ParserM Bool) (sub : Goal → ParserM Node) (operand : Node)
    (rounds : Nat) : extend opensArrow sub operand (rounds + 1) = (do
      match ← current with
      | some word =>
        if ← continues operand word then
          let longer ← handOver (.extending operand.kind) operand (extension sub word.kind)
          extend opensArrow sub longer rounds
        else pure operand
      | none => pure operand) := by
  funext parser
  rw [extend]
  simp only [run_bind, run_get, run_current]
  cases hc : parser.lexer.current with
  | none => rfl
  | some word =>
    by_cases ha : (!parser.context.isComplete operand && parser.context.admits operand word) = true
    -- inside the new frame the operand's own token is current, so `node` takes the operand up
    · have hw := canExtend_of_admits (Bool.and_eq_true_iff.mp ha).2
      have hn : within (.extending operand.kind) (node opensArrow sub)
            { parser with operands := operand :: parser.operands } =
          within (.extending operand.kind) (takeOperand >>= extension sub word.kind)
            { parser with operands := operand :: parser.operands } :=
        within_congr (node_extending hc rfl hw)
      simp only [run_bind, run_continues, ha, if_true, handOver, run_putOperand, hn]
    · simp only [run_bind, run_continues, if_neg ha]

end ParserM

end ScriptTree
