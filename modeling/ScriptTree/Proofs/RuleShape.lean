import ScriptTree.Proofs.Outcome
import ScriptTree.Proofs.StateLaws
import ScriptTree.Proofs.TreeShape

/-!
The trees that the grammar rules build.

A rule builds a sound node from what it finds in its parts. What it finds depends on the construct in
progress: an opening brace is a block only where the construct asks for one, and a function is a
declaration only in the place of a statement.
-/

namespace ScriptTree

namespace Node

/-- A sound tree whose root passes a test. -/
def SoundAs (test : Node → Bool) (node : Node) : Prop := test node = true ∧ node.Sound

/-- Sound trees whose roots all pass a test. -/
def AllSound (test : Node → Bool) (nodes : List Node) : Prop :=
  nodes.all test = true ∧ ∀ node ∈ nodes, node.Sound

theorem allSound_nil (test : Node → Bool) : AllSound test [] := by
  refine ⟨rfl, ?_⟩
  intro node hin
  cases hin

/-- The same where there may be no tree. -/
def AnySound (test : Node → Bool) (node : Option Node) : Prop :=
  node.all test = true ∧ ∀ tree ∈ node, tree.Sound

theorem allSound_of_forall {test : Node → Bool} {nodes : List Node}
    (h : ∀ node ∈ nodes, node.SoundAs test) : AllSound test nodes :=
  ⟨List.all_eq_true.mpr fun node hin => (h node hin).1, fun node hin => (h node hin).2⟩

theorem anySound_none (test : Node → Bool) : AnySound test none := ⟨rfl, nofun⟩

theorem AnySound.some {test : Node → Bool} {node : Node} (h : node.SoundAs test) :
    AnySound test (some node) := by
  refine ⟨h.1, ?_⟩
  intro tree htree
  cases htree
  exact h.2

theorem isExpression_of_isIdentifier {node : Node} (h : node.isIdentifier = true) :
    node.isExpression = true ∧ node.isAssignable = true := by
  cases node with
  | identifier name => exact ⟨rfl, rfl⟩
  | _ => cases h

theorem SoundAs.expression {node : Node} (h : node.SoundAs isIdentifier) :
    node.SoundAs isExpression :=
  ⟨(isExpression_of_isIdentifier h.1).1, h.2⟩

theorem soundAs_identifier (name : String) : (identifier name).SoundAs isIdentifier :=
  ⟨rfl, sound_of rfl (by simp [children])⟩

theorem soundAs_literal (value : LiteralValue) (raw : String) :
    (literal value raw).SoundAs isExpression :=
  ⟨rfl, sound_of rfl (by simp [children])⟩

end Node

namespace Frame

/-- The place of an expression that makes up a statement. -/
def wholeStatement : Frame := .filling .expressionStatement .expression

/-- Whether an operand in a construct can start with a token and be an expression. -/
def fits (frame : Frame) (token : Option Token) : Bool :=
  token.all fun token =>
    !(token.kind == .openBrace && Context.expectsBlock [frame]) &&
      !(token.kind == .functionKeyword && Context.expectsDeclaration [frame])

/-- Whether an operand in a construct is an expression, whatever it starts with. -/
def isClear (frame : Frame) : Bool :=
  frame.isEnclosing && !Context.expectsBlock [frame] && !Context.expectsDeclaration [frame] &&
    !decide (frame = wholeStatement)

end Frame

namespace ParserM

open Node

/-- What the rules rely on for the goals inside them. -/
structure Shaping (sub : Goal → ParserM Node) : Prop where
  statement : ∀ {frame : Frame}, Context.expectsDeclaration [frame] = true →
    Yields (within frame (sub .statement)) (SoundAs isStatement)
  operand : ∀ {frame : Frame} {parser after : Parser} {node : Node}, frame.isEnclosing = true →
    frame.fits parser.lexer.current = true → within frame (sub .operand) parser = .ok node after →
      node.Sound ∧
        (node.isExpression = true ∨ frame = .wholeStatement ∧ node.isStatement = true)
  buffers : ∀ {frame : Frame}, frame.isEnclosing = true →
    Leading SameBuffers (within frame (sub .operand))
  setting : ∀ {frame : Frame} (goal : Goal), frame.isEnclosing = true →
    Keeping SameSetting (within frame (sub goal))

section Leaves

-- the demands on a node and its parts are found by unfolding them at its kind
attribute [local simp] isWellFormed children

theorem yields_identifier : Yields identifier (SoundAs isIdentifier) :=
  yields_bind fun _ => yields_bind fun _ => yields_pure (soundAs_identifier _)

theorem yields_name : Yields name (SoundAs isIdentifier) := by
  refine yields_bind fun word => yields_ite ?_ (yields_reject _ _)
  exact yields_bind fun _ => yields_bind fun _ => yields_pure (soundAs_identifier _)

theorem yields_literal : Yields literal (SoundAs isExpression) := by
  refine yields_bind fun word => ?_
  have close (value : LiteralValue) :
      Yields (do nextToken; pure (Node.literal value word.raw)) (SoundAs isExpression) :=
    yields_bind fun _ => yields_pure (soundAs_literal _ _)
  dsimp only
  split
  · split <;> exact yields_bind close
  all_goals exact yields_bind close

theorem yields_reservedWord : Yields reservedWord (SoundAs isExpression) := by
  refine yields_bind fun word => yields_bind fun _ => yields_ite ?_ ?_
  · exact yields_pure (soundAs_literal _ _)
  · exact yields_pure (soundAs_identifier _).expression

theorem yields_regexOperand : Yields regexOperand (SoundAs isExpression) := by
  refine yields_bind fun word => ?_
  cases word with
  | none => exact yields_reject _ _
  | some word => exact yields_ite yields_literal (yields_reject _ _)

theorem yields_memberAccess {owner : Node} (ho : owner.SoundAs isExpression) :
    Yields (memberAccess owner) (SoundAs isExpression) := by
  refine yields_bind fun word => ?_
  cases word with
  | none => exact yields_reject _ _
  | some word =>
    refine yields_ite (yields_bind fun _ => yields_pure ?_) (yields_reject _ _)
    have hk := soundAs_identifier word.value
    exact ⟨rfl, sound_of (by simp [ho.1, hk.expression.1])
      (by simp [ho.2, hk.2])⟩

theorem yields_functionName (word : Option Token) :
    Yields (functionName word) (AnySound isIdentifier) := by
  cases word with
  | none => exact yields_pure (anySound_none _)
  | some word =>
    refine yields_ite (yields_bind fun _ => yields_pure ?_) (yields_pure (anySound_none _))
    exact .some (soundAs_identifier _)

theorem yields_className : Yields className (AnySound isIdentifier) := by
  refine yields_bind fun _ => yields_ite ?_ (yields_pure (anySound_none _))
  exact Yields.bind yields_identifier fun name hname => yields_pure (.some hname)

theorem yields_jump : Yields jump (SoundAs isStatement) := by
  refine yields_bind fun word => yields_bind fun _ => yields_bind fun _ => yields_pure ?_
  have hl : AnySound isIdentifier
      (if word.value.isEmpty then none else some (.identifier word.value)) := by
    split
    · exact anySound_none _
    · exact .some (soundAs_identifier _)
  refine ⟨?_, sound_of hl.1 (by simpa using hl.2)⟩
  split <;> rfl

theorem yields_emptyStatement : Yields emptyStatement (SoundAs isStatement) :=
  yields_bind fun _ => yields_pure ⟨rfl, sound_of rfl (by simp)⟩

theorem yields_moduleName : Yields moduleName (SoundAs isExpression) :=
  yields_bind fun _ => yields_ite yields_literal (yields_reject _ _)

theorem yields_renamed {first : Node} (h : first.SoundAs isIdentifier) :
    Yields (renamed first) (SoundAs isIdentifier) :=
  yields_bind fun _ => yields_ite yields_name (yields_pure h)

theorem yields_importSpecifier : Yields importSpecifier Node.Sound := by
  refine Yields.bind yields_name fun imported hi => (yields_renamed hi).bind fun localName hl => ?_
  exact yields_pure (sound_of (by simp [hi.1, hl.1]) (by simp [hi.2, hl.2]))

theorem yields_exportSpecifier : Yields exportSpecifier Node.Sound := by
  refine Yields.bind yields_name fun localName hl => (yields_renamed hl).bind fun exported he => ?_
  exact yields_pure (sound_of (by simp [hl.1, he.1]) (by simp [hl.2, he.2]))

theorem sound_importTarget {localName : Node} (h : localName.SoundAs isIdentifier)
    (target : ImportTarget) : (importTarget target localName).Sound :=
  sound_of h.1 (by simp [h.2])

theorem yields_importBindings : Yields importBindings fun nodes => ∀ node ∈ nodes, node.Sound := by
  refine yields_bind fun _ => yields_ite ?_ ?_
  · refine yields_bind fun _ => Yields.bind yields_name fun localName hl => yields_pure ?_
    exact List.forall_mem_singleton.mpr (sound_importTarget hl _)
  · exact yields_bind fun _ => Yields.closedList yields_importSpecifier _

theorem yields_importSpecifiers :
    Yields importSpecifiers fun nodes => ∀ node ∈ nodes, node.Sound := by
  refine yields_bind fun word => yields_ite ?_ yields_importBindings
  refine Yields.bind yields_name fun localName hl => yields_bind fun _ => yields_ite ?_ ?_
  · refine Yields.bind yields_importBindings fun others hothers => yields_pure ?_
    exact List.forall_mem_cons.mpr ⟨sound_importTarget hl _, hothers⟩
  · exact yields_pure (List.forall_mem_singleton.mpr (sound_importTarget hl _))

theorem yields_importDeclaration : Yields importDeclaration (SoundAs isStatement) := by
  have source (specifiers : List Node) (hs : ∀ node ∈ specifiers, node.Sound) : Yields (do
      let source ← moduleName
      let _ ← accept .semicolon
      pure (Node.importDeclaration specifiers source)) (SoundAs isStatement) := by
    refine Yields.bind yields_moduleName fun source hsource => yields_bind fun _ => yields_pure ?_
    exact ⟨rfl, sound_of hsource.1 (by simpa [hsource.2] using hs)⟩
  refine yields_bind fun _ => yields_bind fun _ => yields_ite ?_ ?_
  · exact source [] (allSound_nil Node.isExpression).2
  · refine (Yields.within yields_importSpecifiers _).bind fun specifiers hs => yields_bind fun _ => ?_
    exact (yields_pure hs).bind source

theorem yields_exportNamed : Yields exportNamed (SoundAs isStatement) := by
  refine yields_bind fun _ => ?_
  have hlist : Yields (do commaList .closeBrace exportSpecifier (← budget))
      fun nodes => ∀ node ∈ nodes, node.Sound :=
    yields_bind fun rounds => Yields.commaList yields_exportSpecifier _ rounds
  refine (hlist.within _).bind fun specifiers hs => yields_bind fun _ => ?_
  have ending (source : Option Node) (h : AnySound isExpression source) : Yields (do
      let _ ← accept .semicolon
      pure (Node.exportNamed specifiers source)) (SoundAs isStatement) :=
    yields_bind fun _ => yields_pure ⟨rfl, sound_of h.1 (by simpa using ⟨hs, h.2⟩)⟩
  refine yields_bind fun _ => yields_ite ?_ ?_
  · refine Yields.bind yields_moduleName fun source hsource => ?_
    exact (yields_pure (AnySound.some hsource)).bind ending
  · exact (yields_pure (anySound_none _)).bind ending

end Leaves

namespace Shaping

variable {sub : Goal → ParserM Node} (shaping : Shaping sub)
include shaping

/-- In most places an operand is an expression, whatever it starts with. -/
theorem clear {frame : Frame} (h : frame.isClear = true) :
    Yields (within frame (sub .operand)) (SoundAs isExpression) := by
  simp only [Frame.isClear, Bool.and_eq_true, Bool.not_eq_true', decide_eq_false_iff_not] at h
  obtain ⟨⟨⟨he, hb⟩, hd⟩, hw⟩ := h
  intro parser after node hm
  have hf : frame.fits parser.lexer.current = true := by
    cases hc : parser.lexer.current with
    | none => rfl
    | some word => simp [Frame.fits, hb, hd]
  obtain ⟨hs, hn⟩ := shaping.operand he hf hm
  exact ⟨hn.resolve_right fun h => hw h.1, hs⟩

theorem operandAt {kind : NodeKind} {slot : Slot} (h : (Frame.filling kind slot).isClear = true) :
    Yields (operandAt sub kind slot) (SoundAs isExpression) :=
  shaping.clear h

theorem statementAt {kind : NodeKind} {slot : Slot}
    (h : Context.expectsDeclaration [.filling kind slot] = true) :
    Yields (statementAt sub kind slot) (SoundAs isStatement) :=
  shaping.statement h

theorem operands {kind : NodeKind} {slot : Slot} (h : (Frame.filling kind slot).isClear = true)
    (close : TokenKind) :
    Yields (closedList close (ParserM.operandAt sub kind slot)) (AllSound isExpression) :=
  ((shaping.operandAt h).closedList close).mono fun _ => allSound_of_forall

/-- There is one text more than there are expressions. -/
theorem templateParts (rounds : Nat) : Yields (templateParts sub rounds) fun parts =>
    AllSound isTemplateText parts.1 ∧ AllSound isExpression parts.2 ∧
      parts.1.length = parts.2.length + 1 := by
  induction rounds with
  | zero => exact yields_throw _ _
  | succ rounds ih =>
    refine yields_bind fun chunk => ?_
    cases chunk with
    | none => exact yields_reject _ _
    | some chunk =>
      have htext : (templateElement chunk.value).SoundAs isTemplateText :=
        ⟨rfl, sound_of rfl (by simp [children])⟩
      refine yields_ite (yields_bind fun _ => ?_) ?_
      · refine (shaping.operandAt rfl).bind fun expression he => yields_bind fun _ => ?_
        refine yields_ite ?_ (yields_reject _ _)
        refine ih.bind fun parts hparts => yields_pure ?_
        obtain ⟨ht, hx, hlen⟩ := hparts
        -- a text and an expression stand before the parts that are left
        refine ⟨⟨?_, ?_⟩, ⟨?_, ?_⟩, ?_⟩
        · simp [htext.1, ht.1]
        · simpa using ⟨htext.2, ht.2⟩
        · simp [he.1, hx.1]
        · simpa using ⟨he.2, hx.2⟩
        · simp [hlen]
      · refine yields_pure ⟨⟨?_, ?_⟩, allSound_nil _, rfl⟩
        · simp [htext.1]
        · simpa using htext.2

theorem template : Yields (template sub) (SoundAs isExpression) := by
  refine yields_bind fun rounds => (shaping.templateParts rounds).bind fun parts hparts => ?_
  obtain ⟨ht, hx, hlen⟩ := hparts
  refine yields_bind fun _ => yields_pure ⟨rfl, sound_of ?_ ?_⟩
  · simp [isWellFormed, ht.1, hx.1, hlen]
  · simpa [children] using ⟨ht.2, hx.2⟩

theorem spread : Yields (spread sub) (SoundAs isExpression) := by
  refine yields_bind fun _ => (shaping.operandAt rfl).bind fun argument ha => yields_pure ?_
  exact ⟨rfl, sound_of ha.1 (by simp [children, ha.2])⟩

theorem array : Yields (array sub) (SoundAs isExpression) := by
  refine yields_bind fun _ => (shaping.operands rfl _).bind fun elements he => yields_pure ?_
  exact ⟨rfl, sound_of he.1 (by simpa [children] using he.2)⟩

theorem statements {goesOn : Option Token → Bool} {kind : NodeKind} {slot : Slot}
    (h : Context.expectsDeclaration [.filling kind slot] = true) (rounds : Nat) :
    Yields (manyWhile goesOn (ParserM.statementAt sub kind slot) rounds) (AllSound isStatement) :=
  ((shaping.statementAt h).manyWhile goesOn rounds).mono fun _ => allSound_of_forall

theorem block : Yields (block sub) (SoundAs isBlock) := by
  refine yields_bind fun _ => yields_bind fun rounds => ?_
  refine (shaping.statements rfl rounds).bind fun body hb => yields_bind fun _ => yields_pure ?_
  exact ⟨rfl, sound_of hb.1 (by simpa [children] using hb.2)⟩

/-- Where a block can stand, an operand that does not start with a brace is an expression. -/
theorem arrowBody {params : List Node} (hp : AllSound isExpression params) :
    Yields (arrowBody sub params) (SoundAs isExpression) := by
  intro parser after node hm
  rw [ParserM.arrowBody, run_bind, run_isAt] at hm
  dsimp only at hm
  split at hm
  · obtain ⟨body, between, hbody, hend⟩ := ok_of_bind_ok hm
    cases hend
    obtain ⟨hb, hs⟩ := shaping.block.within _ _ _ _ hbody
    exact ⟨rfl, sound_of (by simp [isWellFormed, hp.1, hb]) (by simpa [children, hs] using hp.2)⟩
  · rename_i hbrace
    obtain ⟨body, between, hbody, hend⟩ := ok_of_bind_ok hm
    cases hend
    have hf : (Frame.filling .arrowFunctionExpression .body).fits parser.lexer.current = true := by
      cases hc : parser.lexer.current with
      | none => rfl
      | some word =>
        have hk : ¬word.kind = .openBrace := by simpa [hc] using hbrace
        simp [Frame.fits, hk, Context.expectsDeclaration, Context.innermost, Frame.holdsStatement]
    obtain ⟨hs, hx⟩ := shaping.operand rfl hf hbody
    have he : body.isExpression = true := hx.resolve_right fun h => by cases h.1
    exact ⟨rfl, sound_of (by simp [isWellFormed, hp.1, he]) (by simpa [children, hs] using hp.2)⟩

end Shaping

/-- A list that does not start with its closing token has an item. -/
theorem closedList_ne_nil {α : Type} {close : TokenKind} {item : ParserM α} {parser after : Parser}
    {items : List α}
    (h : (parser.lexer.current.any fun token => token.kind == close) = false)
    (hm : closedList close item parser = .ok items after) : items ≠ [] := by
  rw [closedList, run_bind, run_budget] at hm
  obtain ⟨found, between, hlist, hend⟩ := ok_of_bind_ok hm
  obtain ⟨_, _, -, hend⟩ := ok_of_bind_ok hend
  cases hend
  -- without rounds the list would fail; with one it is entered, since it is not closed yet
  cases hb : parser.budget with
  | zero =>
    rw [hb] at hlist
    cases hlist
  | succ rounds =>
    rw [hb, commaList, run_bind, run_isAt, h] at hlist
    obtain ⟨first, _, -, hlist⟩ := ok_of_bind_ok hlist
    obtain ⟨more, _, -, hlist⟩ := ok_of_bind_ok hlist
    cases more with
    | true =>
      obtain ⟨others, _, -, hlist⟩ := ok_of_bind_ok hlist
      cases hlist
      exact List.cons_ne_nil _ _
    | false =>
      cases hlist
      exact List.cons_ne_nil _ _

/-- Parameters have been put down, all of them sound. -/
def PutsSound (parser after : Parser) : Prop :=
  ∃ params, after.pendingParams = params ++ parser.pendingParams ∧ AllSound isExpression params

theorem putsSound_elementary : Elementary (fun {α} (m : ParserM α) => Leading PutsSound m) := by
  refine leading_elementary (fun _ => ⟨[], rfl, allSound_nil _⟩) ?_ fun _ _ =>
    ⟨[], rfl, allSound_nil _⟩
  rintro first between last ⟨params, hp, ht, hs⟩ ⟨params', hp', ht', hs'⟩
  refine ⟨params' ++ params, ?_, ?_, List.forall_mem_append.mpr ⟨hs', hs⟩⟩
  · rw [hp', hp, List.append_assoc]
  · rw [List.all_append, ht', ht, Bool.and_self]

namespace Shaping

variable {sub : Goal → ParserM Node} (shaping : Shaping sub)
include shaping

theorem arrowParameter : Leading PutsSound (arrowParameter sub) := by
  intro parser _ after hm
  obtain ⟨parameter, between, hoperand, hput⟩ := ok_of_bind_ok hm
  have hx := shaping.operandAt rfl _ _ _ hoperand
  have hkept := shaping.buffers rfl hoperand
  cases hput
  refine ⟨[parameter], ?_, ?_, ?_⟩
  · rw [← hkept.2]
    rfl
  · simp [hx.1]
  · simpa using hx.2

/-- What is taken up behind the arrow is what was put down before it. -/
theorem arrowFunction : Yields (arrowFunction sub) (SoundAs isExpression) := by
  refine yields_bind fun _ => ?_
  intro parser after node hm
  obtain ⟨mark, start, hget, hm⟩ := ok_of_bind_ok hm
  cases hget
  obtain ⟨items, listed, hlist, hm⟩ := ok_of_bind_ok hm
  obtain ⟨_, behind, harrow, hm⟩ := ok_of_bind_ok hm
  obtain ⟨params, taken, htake, hbody⟩ := ok_of_bind_ok hm
  have hput : Leading PutsSound (do
      let _ ← closedList .closeParen (ParserM.arrowParameter sub)
      require .arrow) :=
    putsSound_elementary.bind (putsSound_elementary.closedList _ shaping.arrowParameter) fun _ =>
      putsSound_elementary.require .arrow
  have hrun : (do
      let _ ← closedList .closeParen (ParserM.arrowParameter sub)
      require .arrow : ParserM Unit) parser = .ok () behind := by
    rw [run_bind, hlist]
    exact harrow
  obtain ⟨new, hnew, ht, hs⟩ := hput hrun
  rw [run_takeParams] at htake
  cases htake
  apply shaping.arrowBody _ _ _ _ hbody
  -- as many are taken up as there are above the mark
  have hcount : behind.pendingParams.length - parser.pendingParams.length = new.length := by
    rw [hnew, List.length_append]
    omega
  rw [hcount, hnew, List.take_left]
  exact ⟨by rw [List.all_reverse, ht], by simpa using hs⟩

/-- Parentheses hold at least one operand, and those that hold more make a sequence. -/
theorem parenthesized : Yields (parenthesized sub) (SoundAs isExpression) := by
  refine yields_bind fun _ => ?_
  intro parser after node hm
  rw [run_bind, run_isAt] at hm
  dsimp only at hm
  split at hm
  · cases hm
  · rename_i hclose
    obtain ⟨items, between, hlist, hend⟩ := ok_of_bind_ok hm
    have hitems : AllSound isExpression items := by
      apply allSound_of_forall
      exact (shaping.clear rfl).closedList _ _ _ _ hlist
    have hne : items ≠ [] := closedList_ne_nil (Bool.eq_false_iff.mpr hclose) hlist
    -- one operand stands for itself, more are a sequence
    cases items with
    | nil => exact absurd rfl hne
    | cons first others =>
      cases others with
      | nil =>
        cases hend
        have hfirst := hitems.1
        simp only [List.all_cons, List.all_nil, Bool.and_true] at hfirst
        exact ⟨hfirst, hitems.2 _ List.mem_cons_self⟩
      | cons second others =>
        cases hend
        refine ⟨rfl, sound_of ?_ (by simpa [children] using hitems.2)⟩
        simpa [isWellFormed] using hitems.1

theorem openingParen (opensArrow : ParserM Bool) :
    Yields (openingParen opensArrow sub) (SoundAs isExpression) :=
  yields_bind fun _ => yields_ite shaping.arrowFunction shaping.parenthesized

theorem argumentList {owner : NodeKind} (h : (Frame.filling owner .arguments).isClear = true) :
    Yields (argumentList sub owner) (AllSound isExpression) :=
  yields_bind fun _ => shaping.operands h _

theorem construction : Yields (construction sub) (SoundAs isExpression) := by
  refine yields_bind fun _ => (shaping.operandAt rfl).bind fun callee hc => ?_
  have build {arguments : List Node} (h : AllSound isExpression arguments) :
      (Node.call .construct callee arguments).SoundAs isExpression := by
    refine ⟨rfl, sound_of ?_ ?_⟩
    · simp [isWellFormed, hc.1, h.1]
    · simpa [children, hc.2] using h.2
  refine yields_bind fun _ => yields_ite ?_ (yields_pure (build (allSound_nil _)))
  exact (shaping.argumentList rfl).bind fun arguments ha => yields_pure (build ha)

theorem yieldOperand : Yields (yieldOperand sub) (SoundAs isExpression) := by
  refine yields_bind fun word => yields_bind fun following => yields_ite ?_ ?_
  · exact yields_pure ⟨rfl, sound_of rfl (by simp [children])⟩
  · refine (shaping.operandAt rfl).bind fun argument ha => yields_pure ?_
    exact ⟨rfl, sound_of ha.1 (by simpa [children] using ha.2)⟩

theorem leadingOperator : Yields (leadingOperator sub) (SoundAs isExpression) := by
  refine yields_bind fun word => yields_ite (yields_bind fun _ => yields_ite ?_ ?_) ?_
  · refine (shaping.operandAt rfl).bind fun argument ha => yields_pure ?_
    exact ⟨rfl, sound_of (by simp [isWellFormed, ha.1]) (by simp [children, ha.2])⟩
  · refine (shaping.operandAt rfl).bind fun argument ha => yields_pure ?_
    exact ⟨rfl, sound_of ha.1 (by simp [children, ha.2])⟩
  · exact yields_reject _ _

section Extensions

variable {operand : Node} (ho : operand.SoundAs isExpression)
include ho

theorem computedAccess : Yields (computedAccess sub operand) (SoundAs isExpression) := by
  refine yields_bind fun _ => (shaping.operandAt rfl).bind fun key hk => ?_
  refine yields_bind fun _ => yields_pure ⟨rfl, sound_of ?_ ?_⟩
  · simp [isWellFormed, ho.1, hk.1]
  · simp [children, ho.2, hk.2]

theorem call (hcallable : operand.isCallable = true) :
    Yields (call sub operand) (SoundAs isExpression) := by
  refine (shaping.argumentList rfl).bind fun arguments ha => yields_pure ⟨rfl, sound_of ?_ ?_⟩
  · simp [isWellFormed, ho.1, ha.1, hcallable]
  · simpa [children, ho.2] using ha.2

omit shaping in
theorem soundAs_binary {right : Node} (hr : right.SoundAs isExpression) (operator : String) :
    (binary (Operator.role operator) operator operand right).SoundAs isExpression := by
  have hrole : (Operator.role operator == .logical) = Operator.isLogical operator := by
    unfold Operator.role
    cases Operator.isLogical operator <;> rfl
  refine ⟨rfl, sound_of ?_ ?_⟩
  · simp [isWellFormed, ho.1, hr.1, hrole]
  · simp [children, ho.2, hr.2]

omit ho in
/-- Both loops over operators turn sound operands into a sound one. -/
theorem operators (rounds : Nat) :
    (∀ {left : Node} least, left.SoundAs isExpression →
      Yields (takeOperators sub left least rounds) (SoundAs isExpression)) ∧
    ∀ {right : Node} strength, right.SoundAs isExpression →
      Yields (absorb sub right strength rounds) (SoundAs isExpression) := by
  induction rounds with
  | zero => exact ⟨fun _ _ => yields_throw _ _, fun _ _ => yields_throw _ _⟩
  | succ rounds ih =>
    obtain ⟨ihTake, ihAbsorb⟩ := ih
    constructor
    · intro left least hl
      rw [takeOperators]
      refine yields_bind fun found => ?_
      split
      · refine yields_ite (yields_pure hl) (yields_bind fun _ => ?_)
        refine (shaping.operandAt rfl).bind fun right hr => ?_
        refine (ihAbsorb _ hr).bind fun right hr => ?_
        exact ihTake least (soundAs_binary hl hr _)
      · exact yields_pure hl
    · intro right strength hr
      have hboth (least : Nat) : Yields (do
          let right ← takeOperators sub right least rounds
          absorb sub right strength rounds) (SoundAs isExpression) :=
        (ihTake least hr).bind fun right hr => ihAbsorb strength hr
      rw [absorb]
      refine yields_bind fun found => ?_
      split
      · exact yields_ite (hboth _) (yields_ite (hboth _) (yields_pure hr))
      · exact yields_pure hr

theorem assignment (ha : operand.isAssignable = true) :
    Yields (assignment sub operand) (SoundAs isExpression) := by
  refine yields_bind fun word => yields_bind fun _ => ?_
  refine (shaping.operandAt rfl).bind fun right hr => yields_pure ⟨rfl, sound_of ?_ ?_⟩
  · simp [isWellFormed, ha, hr.1]
  · simp [children, ho.2, hr.2]

theorem conditional : Yields (conditional sub operand) (SoundAs isExpression) := by
  refine yields_bind fun _ => (shaping.operandAt rfl).bind fun consequent hc => ?_
  refine yields_bind fun _ => (shaping.operandAt rfl).bind fun alternate ha => ?_
  refine yields_pure ⟨rfl, sound_of ?_ ?_⟩
  · simp [isWellFormed, ho.1, hc.1, ha.1]
  · simp [children, ho.2, hc.2, ha.2]

theorem arrowFromOperand : Yields (arrowFromOperand sub operand) (SoundAs isExpression) := by
  refine yields_bind fun _ => shaping.arrowBody ⟨?_, ?_⟩
  · simp [ho.1]
  · simpa using ho.2

theorem labeled (hi : operand.isIdentifier = true) :
    Yields (labeled sub operand) (SoundAs isLabeled) := by
  refine yields_bind fun _ => (shaping.statementAt rfl).bind fun body hb => ?_
  refine yields_pure ⟨rfl, sound_of ?_ ?_⟩
  · simp [isWellFormed, hi, hb.1]
  · simp [children, ho.2, hb.2]

omit ho in
theorem sequenceRest (rounds : Nat) :
    Yields (sequenceRest sub rounds) (AllSound isExpression) := by
  induction rounds with
  | zero => exact yields_throw _ _
  | succ rounds ih =>
    refine yields_bind fun _ => yields_ite ?_ (yields_pure (allSound_nil _))
    refine (shaping.operandAt rfl).bind fun expression he => ih.bind fun others hothers => ?_
    refine yields_pure ⟨?_, List.forall_mem_cons.mpr ⟨he.2, hothers.2⟩⟩
    simp [he.1, hothers.1]

/-- At a comma a sequence has a second element. -/
theorem sequence {parser after : Parser} {word : Token} {node : Node}
    (hw : parser.lexer.current = some word) (hk : word.kind = .comma)
    (hm : sequence sub operand parser = .ok node after) : node.SoundAs isExpression := by
  rw [ParserM.sequence, run_bind, run_budget] at hm
  obtain ⟨others, between, hrest, hend⟩ := ok_of_bind_ok hm
  cases hend
  have hothers := shaping.sequenceRest _ _ _ _ hrest
  -- the loop is entered at the comma, so it gives an element
  have hne : others ≠ [] := by
    intro hnil
    subst hnil
    cases hb : parser.budget with
    | zero =>
      rw [hb] at hrest
      cases hrest
    | succ rounds =>
      have hcomma : (parser.lexer.current.any fun token => token.kind == .comma) = true := by
        simp [hw, hk]
      rw [hb, ParserM.sequenceRest, run_bind, run_accept, if_pos hcomma] at hrest
      obtain ⟨expression, _, -, hrest⟩ := ok_of_bind_ok hrest
      obtain ⟨_, _, -, hrest⟩ := ok_of_bind_ok hrest
      cases hrest
  obtain ⟨second, others, rfl⟩ := List.exists_cons_of_ne_nil hne
  refine ⟨rfl, sound_of ?_ ?_⟩
  · have ht := hothers.1
    simp only [List.all_cons, Bool.and_eq_true] at ht
    simp [isWellFormed, ho.1, ht.1, ht.2]
  · simpa [children, ho.2] using hothers.2

end Extensions

end Shaping

end ParserM

end ScriptTree
