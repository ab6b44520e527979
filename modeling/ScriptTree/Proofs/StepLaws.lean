import ScriptTree.Proofs.StepRun

/-!
Properties of parser steps that follow from the parts of a step.

Every grammar rule is put together from a few kinds of steps: it looks at the current token, goes on
to another one, enters a construct, or fails. A property that these have, and that passes from parts
to the whole, is a property of every rule. The same holds for a relation between two steps, which
compares what a rule does in two parses. The rules are gone through once, for relations; what is
proved of all of them elsewhere is then a matter of checking the parts.
-/

namespace ScriptTree.ParserM

/-- The messages that a grammar rule gives about the current token. -/
def complaints : List Message :=
  [.invalidNumericLiteral, .missingLeftOperand, .identifierExpected, .emptyParentheses,
   .inOrOfExpected]

/-- The modes in which the grammar rules read tokens. -/
def ruleModes : List LexerMode :=
  [.default, .names, .templateText, .newlines, .regexes, .expecting [.openParen]]

/-- The words that may stand before a member, but for `async`. -/
def memberWords : List TokenKind := [.staticKeyword, .getKeyword, .setKeyword]

/-- A property of steps that passes from parts to the whole where no construct is entered. -/
structure Elementary (Holds : ∀ {α : Type}, ParserM α → Prop) : Prop where
  pure : ∀ {α : Type} (a : α), Holds (pure a : ParserM α)
  bind : ∀ {α β : Type} {m : ParserM α} {f : α → ParserM β},
    Holds m → (∀ a, Holds (f a)) → Holds (m >>= f)
  current : Holds current
  surroundings : Holds surroundings
  budget : Holds budget
  outOfSteps : ∀ {α : Type}, Holds (throw .outOfSteps : ParserM α)
  unexpected : ∀ {α : Type}, Holds (reject Parser.unexpected : ParserM α)
  wanting : ∀ {α : Type} (wanted : String),
    Holds (reject (fun parser => parser.wanting wanted) : ParserM α)
  complaint : ∀ {α : Type} {message : Message}, message ∈ complaints →
    Holds (reject (fun parser => parser.complaint message) : ParserM α)
  next : ∀ {mode}, mode ∈ ruleModes → Holds (modifyLexer fun lexer => lexer.next mode)
  reread : ∀ {mode}, mode ∈ ruleModes → Holds (modifyLexer fun lexer => lexer.reread mode)

/-- A property of steps that passes from the parts of a grammar rule to the rule. -/
structure Compositional (Holds : ∀ {α : Type}, ParserM α → Prop) : Prop
    extends Elementary @Holds where
  modifier : ∀ sameLine, Holds (tryModifier sameLine)
  within : ∀ {α : Type} (frame : Frame) {m : ParserM α}, Holds m → Holds (within frame m)
  collectParams : ∀ {item : ParserM Node}, Holds item → Holds (collectParams item)
  handOver : ∀ (frame : Frame) (operand : Node) {step : Node → ParserM Node},
    (∀ x, Holds (step x)) → Holds (handOver frame operand step)

/-- A relation between steps of two parses that passes from parts to the whole where no construct is
entered. The current tokens may stand at different places, the constructs in progress may be other
ones in which an opening brace means the same, and the second parse may have more rounds left for its
loops; a loop of the first that has none left is related to everything. -/
structure PairElementary (Rel : ∀ {α : Type}, ParserM α → ParserM α → Prop) : Prop where
  pure : ∀ {α : Type} (a : α), Rel (pure a : ParserM α) (pure a)
  bind : ∀ {α β : Type} {m m' : ParserM α} {f f' : α → ParserM β},
    Rel m m' → (∀ a, Rel (f a) (f' a)) → Rel (m >>= f) (m' >>= f')
  current : ∀ {β : Type} {f f' : Option Token → ParserM β}, Rel (f none) (f' none) →
    (∀ word start stop, Rel (f (some word)) (f' (some { word with start, stop }))) →
      Rel (current >>= f) (current >>= f')
  surroundings : ∀ {β : Type} {f f' : Context → ParserM β},
    (∀ {context context' : Context}, context.OpensAlike context' → Rel (f context) (f' context')) →
      Rel (surroundings >>= f) (surroundings >>= f')
  budget : ∀ {β : Type} {f f' : Nat → ParserM β},
    (∀ {rounds rounds'}, rounds ≤ rounds' → Rel (f rounds) (f' rounds')) →
      Rel (budget >>= f) (budget >>= f')
  outOfSteps : ∀ {α : Type} {m : ParserM α}, Rel (throw .outOfSteps : ParserM α) m
  unexpected : ∀ {α : Type}, Rel (reject Parser.unexpected : ParserM α) (reject Parser.unexpected)
  wanting : ∀ {α : Type} (wanted : String),
    Rel (reject (fun parser => parser.wanting wanted) : ParserM α)
      (reject fun parser => parser.wanting wanted)
  complaint : ∀ {α : Type} {message : Message}, message ∈ complaints →
    Rel (reject (fun parser => parser.complaint message) : ParserM α)
      (reject fun parser => parser.complaint message)
  next : ∀ {mode}, mode ∈ ruleModes →
    Rel (modifyLexer fun lexer => lexer.next mode) (modifyLexer fun lexer => lexer.next mode)
  reread : ∀ {mode}, mode ∈ ruleModes →
    Rel (modifyLexer fun lexer => lexer.reread mode) (modifyLexer fun lexer => lexer.reread mode)

/-- A relation between steps of two parses that passes from the parts of a grammar rule to the
rule. -/
structure PairCompositional (Rel : ∀ {α : Type}, ParserM α → ParserM α → Prop) : Prop
    extends PairElementary @Rel where
  declaration : Rel declarationExpected declarationExpected
  memberWord : ∀ {kind}, kind ∈ memberWords → Rel (acceptModifier kind) (acceptModifier kind)
  asyncWord : Rel acceptAsync acceptAsync
  within : ∀ {α : Type} (frame : Frame) {m m' : ParserM α},
    Rel m m' → Rel (within frame m) (within frame m')
  collectParams : ∀ {item item' : ParserM Node},
    Rel item item' → Rel (collectParams item) (collectParams item')
  handOver : ∀ (frame : Frame) (operand : Node) {step step' : Node → ParserM Node},
    (∀ x, Rel (step x) (step' x)) → Rel (handOver frame operand step) (handOver frame operand step')

theorem Elementary.pair {Holds : ∀ {α : Type}, ParserM α → Prop} (laws : Elementary @Holds) :
    PairElementary (fun {_} m _ => Holds m) where
  pure a := laws.pure a
  bind := laws.bind
  current hnone hsome := laws.bind laws.current fun word => by
    cases word with
    | none => exact hnone
    | some word => exact hsome word word.start word.stop
  surroundings h := laws.bind laws.surroundings fun context => h (.refl context)
  budget h := laws.bind laws.budget fun _ => h (Nat.le_refl _)
  outOfSteps := laws.outOfSteps
  unexpected := laws.unexpected
  wanting wanted := laws.wanting wanted
  complaint h := laws.complaint h
  next := laws.next
  reread := laws.reread

theorem either {Rel : ∀ {α : Type}, ParserM α → ParserM α → Prop} {α : Type} {c : Prop}
    [Decidable c] {m m' n n' : ParserM α} (h : Rel m m') (h' : Rel n n') :
    Rel (if c then m else n) (if c then m' else n') := by
  split
  · exact h
  · exact h'

namespace PairElementary

variable {Rel : ∀ {α : Type}, ParserM α → ParserM α → Prop} (laws : PairElementary @Rel)
  {α β : Type}
include laws

theorem token {f f' : Token → ParserM β}
    (h : ∀ word start stop, Rel (f word) (f' { word with start, stop })) :
    Rel (token >>= f) (token >>= f') := by
  rw [ParserM.token, bind_assoc, bind_assoc]
  refine laws.current ?_ fun word start stop => ?_
  -- a token moved to its own place is itself
  · exact laws.bind laws.unexpected fun word => h word word.start word.stop
  · exact h word start stop

theorem nextTokenIn {mode : LexerMode} (hm : mode ∈ ruleModes) {f f' : Option Token → ParserM β}
    (hnone : Rel (f none) (f' none))
    (hsome : ∀ word start stop, Rel (f (some word)) (f' (some { word with start, stop }))) :
    Rel (nextTokenIn mode >>= f) (nextTokenIn mode >>= f') := by
  rw [ParserM.nextTokenIn, bind_assoc, bind_assoc]
  exact laws.bind (laws.next hm) fun _ => laws.current hnone hsome

theorem nextToken : Rel nextToken nextToken := laws.next (by simp [ruleModes])

theorem rereadToken {mode : LexerMode} (hm : mode ∈ ruleModes) {f f' : Option Token → ParserM β}
    (hnone : Rel (f none) (f' none))
    (hsome : ∀ word start stop, Rel (f (some word)) (f' (some { word with start, stop }))) :
    Rel (ParserM.reread mode >>= f) (ParserM.reread mode >>= f') := by
  rw [ParserM.reread, bind_assoc, bind_assoc]
  exact laws.bind (laws.reread hm) fun _ => laws.current hnone hsome

theorem isAt (kind : TokenKind) : Rel (isAt kind) (isAt kind) :=
  laws.current (laws.pure _) fun _ _ _ => laws.pure _

theorem isAtText (kind : TokenKind) (text : String) : Rel (isAtText kind text) (isAtText kind text) :=
  laws.current (laws.pure _) fun _ _ _ => laws.pure _

theorem accept (kind : TokenKind) : Rel (accept kind) (accept kind) :=
  laws.bind (laws.isAt kind) fun _ =>
    either (laws.bind laws.nextToken fun _ => laws.pure true) (laws.pure false)

theorem acceptText (kind : TokenKind) (text : String) :
    Rel (acceptText kind text) (acceptText kind text) :=
  laws.bind (laws.isAtText kind text) fun _ =>
    either (laws.bind laws.nextToken fun _ => laws.pure true) (laws.pure false)

theorem require (kind : TokenKind) : Rel (require kind) (require kind) :=
  laws.bind (laws.isAt kind) fun _ => either laws.nextToken (laws.wanting _)

theorem requireText (kind : TokenKind) (text : String) :
    Rel (requireText kind text) (requireText kind text) :=
  laws.bind (laws.isAtText kind text) fun _ => either laws.nextToken (laws.wanting _)

/-- Loops whose rounds are related are related, if the second has at least as many rounds left. -/
theorem rounds {loop loop' : Nat → ParserM α} (hzero : loop 0 = throw .outOfSteps)
    (hsucc : ∀ {r r'}, Rel (loop r) (loop' r') → Rel (loop (r + 1)) (loop' (r' + 1)))
    {r r' : Nat} (h : r ≤ r') : Rel (loop r) (loop' r') := by
  induction r generalizing r' with
  | zero =>
    rw [hzero]
    exact laws.outOfSteps
  | succ r ih =>
    cases r' with
    | zero => exact absurd h (Nat.not_succ_le_zero r)
    | succ r' => exact hsucc (ih (Nat.le_of_succ_le_succ h))

section Lists

variable {item item' : ParserM α} (h : Rel item item')
include h

theorem commaList (close : TokenKind) {r r' : Nat} (hr : r ≤ r') :
    Rel (commaList close item r) (commaList close item' r') := by
  refine laws.rounds rfl (fun ih => ?_) hr
  -- one item, then the list again behind its comma, with a round less
  refine laws.bind (laws.isAt close) fun _ => either (laws.pure []) ?_
  refine laws.bind h fun first => laws.bind (laws.accept .comma) fun _ => ?_
  exact either (laws.bind ih fun _ => laws.pure _) (laws.pure _)

theorem closedList (close : TokenKind) : Rel (closedList close item) (closedList close item') :=
  laws.budget fun hr => laws.bind (laws.commaList h close hr) fun _ =>
    laws.bind (laws.require close) fun _ => laws.pure _

/-- The condition under which a loop goes on may not depend on the place of the current token. -/
theorem manyWhile {goesOn : Option Token → Bool}
    (hg : ∀ word start stop, goesOn (some { word with start, stop }) = goesOn (some word))
    {r r' : Nat} (hr : r ≤ r') : Rel (manyWhile goesOn item r) (manyWhile goesOn item' r') := by
  refine laws.rounds rfl (fun {r r'} ih => ?_) hr
  have again (goes : Bool) : Rel
      (if goes then do
        let first ← item
        let others ← ParserM.manyWhile goesOn item r
        Pure.pure (first :: others)
      else Pure.pure [])
      (if goes then do
        let first ← item'
        let others ← ParserM.manyWhile goesOn item' r'
        Pure.pure (first :: others)
      else Pure.pure []) :=
    either (laws.bind h fun first => laws.bind ih fun others => laws.pure _) (laws.pure [])
  refine laws.current (again _) fun word start stop => ?_
  rw [hg word start stop]
  exact again _

end Lists

theorem name : Rel name name := by
  refine laws.token fun word start stop => either ?_ (laws.complaint (by decide))
  have close (again : Option Token) : Rel
      (do ParserM.nextToken; Pure.pure (Node.identifier (again.getD word).value))
      (do ParserM.nextToken; Pure.pure (Node.identifier (again.getD word).value)) :=
    laws.bind laws.nextToken fun _ => laws.pure _
  exact laws.rereadToken (by simp [ruleModes]) (close none) fun word _ _ => close (some word)

theorem identifier : Rel identifier identifier :=
  laws.token fun _ _ _ => laws.bind laws.nextToken fun _ => laws.pure _

theorem literal : Rel literal literal := by
  refine laws.token fun word start stop => ?_
  -- whatever the literal is worth, the rule ends by going on to the next token
  have close (value : LiteralValue) :
      Rel (do ParserM.nextToken; Pure.pure (Node.literal value word.raw))
        (do ParserM.nextToken; Pure.pure (Node.literal value word.raw)) :=
    laws.bind laws.nextToken fun _ => laws.pure _
  -- both sides are one step, and are looked at as one
  change (fun step : ParserM Node => Rel step step) _
  split
  · split
    · exact laws.bind (laws.pure _) close
    · exact laws.bind (laws.complaint (by decide)) close
  · exact laws.bind (laws.pure _) close
  · exact laws.bind (laws.pure _) close
  · exact laws.bind (laws.pure _) close
  · exact laws.bind laws.unexpected close

theorem reservedWord : Rel reservedWord reservedWord :=
  laws.token fun _ _ _ => laws.bind laws.nextToken fun _ => either (laws.pure _) (laws.pure _)

theorem regexOperand : Rel regexOperand regexOperand := by
  refine laws.rereadToken (by simp [ruleModes]) (laws.complaint (by decide)) fun word _ _ => ?_
  exact either laws.literal (laws.complaint (by decide))

end PairElementary

/-- What is proved of related steps holds of a property, as a relation that looks at one of them. -/
theorem Compositional.pair {Holds : ∀ {α : Type}, ParserM α → Prop} (laws : Compositional @Holds) :
    PairCompositional (fun {_} m _ => Holds m) where
  toPairElementary := laws.toElementary.pair
  declaration := laws.bind laws.surroundings fun context => laws.pure context.expectsDeclaration
  memberWord _ := laws.bind (laws.toElementary.pair.isAt _) fun _ => by
    split
    · exact laws.modifier false
    · exact laws.pure false
  asyncWord := laws.bind (laws.toElementary.pair.isAtText _ _) fun _ => by
    split
    · exact laws.modifier true
    · exact laws.pure false
  within frame _ _ h := laws.within frame h
  collectParams h := laws.collectParams h
  handOver frame operand _ _ h := laws.handOver frame operand h

/-- Between its parenthesis and its body an arrow function collects its parameters. -/
theorem arrowFunction_eq_collectParams (sub : Goal → ParserM Node) : arrowFunction sub = (do
    nextToken
    let params ← collectParams (operandAt sub .arrowFunctionExpression .params)
    arrowBody sub params) := by
  simp only [arrowFunction, collectParams, arrowParameter, bind_assoc]

namespace PairCompositional

variable {Rel : ∀ {α : Type}, ParserM α → ParserM α → Prop} (laws : PairCompositional @Rel)
include laws

section Rules

variable {sub sub' : Goal → ParserM Node}
  (hsub : ∀ {frame : Frame} (goal : Goal), frame.hosts goal = true →
    Rel (ParserM.within frame (sub goal)) (ParserM.within frame (sub' goal)))
include hsub

omit laws in
theorem operandAt (kind : NodeKind) (slot : Slot)
    (h : (Frame.filling kind slot).hosts .operand = true) :
    Rel (operandAt sub kind slot) (operandAt sub' kind slot) :=
  hsub .operand h

omit laws in
theorem statementAt (kind : NodeKind) (slot : Slot)
    (h : (Frame.filling kind slot).hosts .statement = true) :
    Rel (statementAt sub kind slot) (statementAt sub' kind slot) :=
  hsub .statement h

theorem templateParts {r r' : Nat} (hr : r ≤ r') :
    Rel (templateParts sub r) (templateParts sub' r') := by
  refine laws.rounds rfl (fun ih => ?_) hr
  refine laws.nextTokenIn (by simp [ruleModes]) (laws.wanting _) fun chunk _ _ => ?_
  refine either ?_ (laws.pure _)
  refine laws.bind laws.nextToken fun _ => laws.bind (operandAt hsub _ _ rfl) fun _ => ?_
  refine laws.bind (laws.isAt _) fun _ => either ?_ (laws.wanting _)
  exact laws.bind ih fun _ => laws.pure _

theorem template : Rel (template sub) (template sub') :=
  laws.budget fun hr => laws.bind (laws.templateParts hsub hr) fun _ =>
    laws.bind laws.nextToken fun _ => laws.pure _

theorem spread : Rel (spread sub) (spread sub') :=
  laws.bind laws.nextToken fun _ => laws.bind (operandAt hsub _ _ rfl) fun _ => laws.pure _

theorem array : Rel (array sub) (array sub') :=
  laws.bind laws.nextToken fun _ =>
    laws.bind (laws.closedList (operandAt hsub _ _ rfl) _) fun _ => laws.pure _

theorem block : Rel (block sub) (block sub') :=
  laws.bind (laws.require _) fun _ => laws.budget fun hr =>
    laws.bind (laws.manyWhile (statementAt hsub _ _ rfl) (fun _ _ _ => rfl) hr) fun _ =>
      laws.bind (laws.require _) fun _ => laws.pure _

theorem arrowBody (params : List Node) : Rel (arrowBody sub params) (arrowBody sub' params) := by
  refine laws.bind (laws.isAt _) fun _ => either ?_ ?_
  · exact laws.bind (laws.within _ (laws.block hsub)) fun _ => laws.pure _
  · exact laws.bind (operandAt hsub _ _ rfl) fun _ => laws.pure _

theorem arrowFunction : Rel (arrowFunction sub) (arrowFunction sub') := by
  rw [arrowFunction_eq_collectParams, arrowFunction_eq_collectParams]
  exact laws.bind laws.nextToken fun _ =>
    laws.bind (laws.collectParams (operandAt hsub _ _ rfl)) fun _ => laws.arrowBody hsub _

theorem parenthesized : Rel (parenthesized sub) (parenthesized sub') := by
  refine laws.bind laws.nextToken fun _ => laws.bind (laws.isAt _) fun _ => either ?_ ?_
  · exact laws.complaint (by decide)
  · refine laws.bind (laws.closedList (hsub .operand rfl) _) fun _ => ?_
    split
    · exact laws.pure _
    · exact laws.pure _

theorem openingParen {opensArrow opensArrow' : ParserM Bool} (harrow : Rel opensArrow opensArrow') :
    Rel (openingParen opensArrow sub) (openingParen opensArrow' sub') :=
  laws.bind harrow fun _ => either (laws.arrowFunction hsub) (laws.parenthesized hsub)

theorem argumentList (owner : NodeKind)
    (h : (Frame.filling owner .arguments).hosts .operand = true) :
    Rel (argumentList sub owner) (argumentList sub' owner) :=
  laws.bind (laws.require _) fun _ => laws.closedList (operandAt hsub _ _ h) _

theorem construction : Rel (construction sub) (construction sub') := by
  refine laws.bind laws.nextToken fun _ => laws.bind (operandAt hsub _ _ rfl) fun _ => ?_
  refine laws.bind (laws.isAt _) fun _ => either ?_ (laws.pure _)
  exact laws.bind (laws.argumentList hsub _ rfl) fun _ => laws.pure _

theorem yieldOperand : Rel (yieldOperand sub) (yieldOperand sub') := by
  refine laws.token fun word start stop => ?_
  -- the argument is left out or read, whatever token decides it
  have argument : Rel
      (do
        let argument ← ParserM.operandAt sub .yieldExpression .argument
        Pure.pure (Node.yieldExpression (word.raw.toList.getLast? == some '*') (some argument)))
      (do
        let argument ← ParserM.operandAt sub' .yieldExpression .argument
        Pure.pure (Node.yieldExpression (word.raw.toList.getLast? == some '*') (some argument))) :=
    laws.bind (operandAt hsub _ _ rfl) fun _ => laws.pure _
  refine laws.nextTokenIn (by simp [ruleModes]) ?_ fun _ _ _ => ?_
  · exact either (laws.pure _) argument
  · exact either (laws.pure _) argument

theorem leadingOperator : Rel (leadingOperator sub) (leadingOperator sub') := by
  refine laws.token fun _ _ _ => either ?_ (laws.complaint (by decide))
  refine laws.bind laws.nextToken fun _ => either ?_ ?_
  · exact laws.bind (operandAt hsub _ _ rfl) fun _ => laws.pure _
  · exact laws.bind (operandAt hsub _ _ rfl) fun _ => laws.pure _

omit hsub in
theorem memberAccess (owner : Node) : Rel (memberAccess owner) (memberAccess owner) := by
  refine laws.nextTokenIn (by simp [ruleModes]) (laws.complaint (by decide)) fun _ _ _ => ?_
  exact either (laws.bind laws.nextToken fun _ => laws.pure _) (laws.complaint (by decide))

theorem computedAccess (owner : Node) : Rel (computedAccess sub owner) (computedAccess sub' owner) :=
  laws.bind laws.nextToken fun _ => laws.bind (operandAt hsub _ _ rfl) fun _ =>
    laws.bind (laws.require _) fun _ => laws.pure _

theorem call (callee : Node) : Rel (call sub callee) (call sub' callee) :=
  laws.bind (laws.argumentList hsub _ rfl) fun _ => laws.pure _

omit hsub in
theorem binaryOperator? : Rel binaryOperator? binaryOperator? :=
  laws.current (laws.pure none) fun _ _ _ => laws.pure _

/-- Both halves of the climb over binary operators, by induction on the rounds they share. -/
theorem climbing {r r' : Nat} (hr : r ≤ r') :
    (∀ left least, Rel (takeOperators sub left least r) (takeOperators sub' left least r')) ∧
      ∀ right strength, Rel (absorb sub right strength r) (absorb sub' right strength r') := by
  induction r generalizing r' with
  | zero => exact ⟨fun _ _ => laws.outOfSteps, fun _ _ => laws.outOfSteps⟩
  | succ r ih =>
    obtain ⟨r', rfl⟩ : ∃ rounds, r' = rounds + 1 := Nat.exists_eq_add_one.mpr (by omega)
    obtain ⟨htake, habsorb⟩ := ih (Nat.le_of_succ_le_succ hr)
    refine ⟨fun left least => ?_, fun right strength => ?_⟩
    -- an operator is taken with its right operand, which absorbs what binds tighter
    · rw [takeOperators, takeOperators]
      refine laws.bind laws.binaryOperator? fun found => ?_
      rcases found with _ | ⟨operator, strength⟩
      · exact laws.pure left
      · refine either (laws.pure left) (laws.bind laws.nextToken fun _ => ?_)
        exact laws.bind (operandAt hsub _ _ rfl) fun right =>
          laws.bind (habsorb right strength) fun _ => htake _ least
    · rw [absorb, absorb]
      refine laws.bind laws.binaryOperator? fun found => ?_
      rcases found with _ | ⟨operator, following⟩
      · exact laws.pure right
      · refine either (laws.bind (htake _ _) fun _ => habsorb _ _) (either ?_ (laws.pure right))
        exact laws.bind (htake _ _) fun _ => habsorb _ _

theorem followingOperator (left : Node) :
    Rel (followingOperator sub left) (followingOperator sub' left) := by
  refine laws.token fun _ _ _ => either ?_ ?_
  · exact laws.bind laws.nextToken fun _ => laws.pure _
  · exact laws.budget fun hr => (laws.climbing hsub hr).1 left _

theorem assignment (left : Node) : Rel (assignment sub left) (assignment sub' left) :=
  laws.token fun _ _ _ => laws.bind laws.nextToken fun _ =>
    laws.bind (operandAt hsub _ _ rfl) fun _ => laws.pure _

theorem conditional (test : Node) : Rel (conditional sub test) (conditional sub' test) :=
  laws.bind laws.nextToken fun _ => laws.bind (operandAt hsub _ _ rfl) fun _ =>
    laws.bind (laws.require _) fun _ => laws.bind (operandAt hsub _ _ rfl) fun _ => laws.pure _

theorem sequenceRest {r r' : Nat} (hr : r ≤ r') :
    Rel (sequenceRest sub r) (sequenceRest sub' r') := by
  refine laws.rounds rfl (fun ih => ?_) hr
  refine laws.bind (laws.accept _) fun _ => either ?_ (laws.pure [])
  exact laws.bind (operandAt hsub _ _ rfl) fun _ => laws.bind ih fun _ => laws.pure _

theorem sequence (first : Node) : Rel (sequence sub first) (sequence sub' first) :=
  laws.budget fun hr => laws.bind (laws.sequenceRest hsub hr) fun _ => laws.pure _

theorem arrowFromOperand (parameter : Node) :
    Rel (arrowFromOperand sub parameter) (arrowFromOperand sub' parameter) :=
  laws.bind laws.nextToken fun _ => laws.arrowBody hsub _

theorem labeled (label : Node) : Rel (labeled sub label) (labeled sub' label) :=
  laws.bind laws.nextToken fun _ => laws.bind (statementAt hsub _ _ rfl) fun _ => laws.pure _

end Rules

end PairCompositional

end ScriptTree.ParserM
