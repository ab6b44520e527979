import ScriptTree.Proofs.StepLaws

/-!
The remaining rules, those for members, statements and modules, have every compositional property
and relate as their parts do; so do the statements and operands that are built of them.
-/

namespace ScriptTree

theorem Frame.hosts_key (owner : NodeKind) :
    (Frame.filling owner .key).hosts .operand = true := by
  simp [hosts, isEnclosing, settlesCommas, opensChain]

theorem Frame.hosts_value (owner : NodeKind) :
    (Frame.filling owner .value).hosts .operand = true := by
  simp [hosts, isEnclosing, settlesCommas, opensChain]

namespace ParserM

/-- A rule that asks for the state as a whole looks only at the constructs in progress. -/
theorem function_eq_declarationExpected (sub : Goal → ParserM Node) : function sub = (do
    let word ← token
    let expected ← declarationExpected
    let name ← functionName (← nextTokenIn .names)
    functionRest sub (if expected then .declaration else .expression)
      (afterSpelling? Scan.asyncWord word.raw.toList).isSome
      (word.raw.toList.getLast? == some '*') name) := rfl

theorem object_eq_surroundings (sub : Goal → ParserM Node) : object sub = (do
    let context ← surroundings
    let role := if context.expectsPattern then ObjectRole.pattern else .expression
    nextToken
    let properties ← closedList .closeBrace
      (within (.filling (objectKind role) .properties) (objectMember sub (objectKind role)))
    pure (Node.object role properties)) := rfl

/-- Operands are extended alike, if what continues one of them does so in both parses. -/
theorem PairElementary.extend {Rel : ∀ {α : Type}, ParserM α → ParserM α → Prop}
    (laws : PairElementary @Rel)
    (hgoes : ∀ operand word, Rel (continues operand word) (continues operand word))
    {sub sub' : Goal → ParserM Node} (hlonger : ∀ operand kind,
      Rel (handOver (.extending operand.kind) operand (extension sub kind))
        (handOver (.extending operand.kind) operand (extension sub' kind)))
    {opensArrow opensArrow' : ParserM Bool} (operand : Node) {r r' : Nat} (hr : r ≤ r') :
    Rel (extend opensArrow sub operand r) (extend opensArrow' sub' operand r') := by
  induction r generalizing operand r' with
  | zero => exact laws.outOfSteps
  | succ r ih =>
    obtain ⟨r', rfl⟩ : ∃ rounds, r' = rounds + 1 := Nat.exists_eq_add_one.mpr (by omega)
    rw [extend_succ, extend_succ]
    refine laws.current (laws.pure operand) fun word start stop => ?_
    -- where the token stands does not matter
    have hgo : Rel (continues operand word) (continues operand { word with start, stop }) :=
      hgoes operand word
    refine laws.bind hgo fun _ => either ?_ (laws.pure operand)
    exact laws.bind (hlonger operand word.kind) fun _ => ih _ (Nat.le_of_succ_le_succ hr)

namespace PairCompositional

variable {Rel : ∀ {α : Type}, ParserM α → ParserM α → Prop} (laws : PairCompositional @Rel)
include laws

section Rules

variable {sub sub' : Goal → ParserM Node}
  (hsub : ∀ {frame : Frame} (goal : Goal), frame.hosts goal = true →
    Rel (ParserM.within frame (sub goal)) (ParserM.within frame (sub' goal)))
include hsub

theorem functionRest (role : FunctionRole) (isAsync isGenerator : Bool) (name : Option Node) :
    Rel (functionRest sub role isAsync isGenerator name)
      (functionRest sub' role isAsync isGenerator name) :=
  laws.bind (laws.require _) fun _ =>
    laws.bind (laws.closedList (operandAt hsub _ _ (by cases role <;> rfl)) _) fun _ =>
      laws.bind (laws.within _ (laws.block hsub)) fun _ => laws.pure _

omit hsub in
theorem functionName (word : Token) (start stop : Nat) :
    Rel (functionName (some word)) (functionName (some { word with start, stop })) :=
  either (laws.bind laws.nextToken fun _ => laws.pure _) (laws.pure none)

theorem function : Rel (function sub) (function sub') := by
  rw [function_eq_declarationExpected, function_eq_declarationExpected]
  refine laws.token fun word _ _ => laws.bind laws.declaration fun expected => ?_
  refine laws.nextTokenIn (by simp [ruleModes]) ?_ fun following start stop => ?_
  · exact laws.bind (laws.pure none) fun _ => laws.functionRest hsub _ _ _ _
  · exact laws.bind (laws.functionName following start stop) fun _ =>
      laws.functionRest hsub _ _ _ _

theorem memberKey (owner : NodeKind) : Rel (memberKey sub owner) (memberKey sub' owner) := by
  refine laws.token fun word start stop => ?_
  dsimp only
  split
  · refine laws.bind laws.nextToken fun _ => laws.bind (operandAt hsub _ _ ?_) fun _ => ?_
    · exact Frame.hosts_key owner
    · exact laws.bind (laws.require _) fun _ => laws.pure _
  · exact laws.bind laws.literal fun _ => laws.pure _
  · exact laws.bind laws.literal fun _ => laws.pure _
  · exact either (laws.bind laws.name fun _ => laws.pure _) laws.unexpected

omit hsub in
theorem methodKind : Rel methodKind methodKind := by
  refine laws.bind (laws.memberWord (by decide)) fun _ => either (laws.pure _) ?_
  exact laws.bind (laws.memberWord (by decide)) fun _ => either (laws.pure _) (laws.pure _)

omit hsub in
theorem propertyKind : Rel propertyKind propertyKind := by
  refine laws.bind (laws.memberWord (by decide)) fun _ => either (laws.pure _) ?_
  exact laws.bind (laws.memberWord (by decide)) fun _ => either (laws.pure _) (laws.pure _)

theorem classMember : Rel (classMember sub) (classMember sub') := by
  refine laws.bind (laws.memberWord (by decide)) fun _ => laws.bind laws.asyncWord fun _ => ?_
  refine laws.bind (laws.acceptText _ _) fun _ => laws.bind laws.methodKind fun _ => ?_
  refine laws.bind (laws.memberKey hsub _) fun key => laws.bind (laws.isAt _) fun _ => either ?_ ?_
  · exact laws.bind (laws.functionRest hsub _ _ _ _) fun _ => laws.pure _
  · refine laws.bind (laws.acceptText _ _) fun _ => either ?_ ?_
    · exact laws.bind (operandAt hsub _ _ rfl) fun _ => laws.bind (laws.pure _) fun _ =>
        laws.bind (laws.accept _) fun _ => laws.pure _
    · exact laws.bind (laws.pure _) fun _ => laws.bind (laws.accept _) fun _ => laws.pure _

theorem classMembers {r r' : Nat} (hr : r ≤ r') :
    Rel (classMembers sub r) (classMembers sub' r') := by
  refine laws.rounds rfl (fun ih => ?_) hr
  refine laws.bind (laws.isAt _) fun _ => either (laws.pure []) ?_
  refine laws.bind (laws.accept _) fun _ => either ih ?_
  exact laws.bind (laws.within _ (laws.classMember hsub)) fun _ => laws.bind ih fun _ =>
    laws.pure _

omit hsub in
theorem className : Rel className className := by
  refine laws.bind (laws.isAt _) fun _ => either ?_ (laws.pure none)
  exact laws.bind laws.identifier fun _ => laws.pure _

theorem classDefinition : Rel (classDefinition sub) (classDefinition sub') := by
  refine laws.bind laws.nextToken fun _ => laws.bind laws.className fun name => ?_
  -- with or without a class that is extended, the members come next
  have members (superClass : Option Node) : Rel
      (do
        ParserM.require .openBrace
        let members ← ParserM.classMembers sub (← ParserM.budget)
        ParserM.require .closeBrace
        Pure.pure (Node.classDeclaration name superClass (.classBody members)))
      (do
        ParserM.require .openBrace
        let members ← ParserM.classMembers sub' (← ParserM.budget)
        ParserM.require .closeBrace
        Pure.pure (Node.classDeclaration name superClass (.classBody members))) :=
    laws.bind (laws.require _) fun _ => laws.budget fun hr =>
      laws.bind (laws.classMembers hsub hr) fun _ => laws.bind (laws.require _) fun _ =>
        laws.pure _
  refine laws.bind (laws.accept _) fun _ => either ?_ ?_
  · exact laws.bind (operandAt hsub _ _ rfl) fun _ => laws.bind (laws.pure _) members
  · exact laws.bind (laws.pure _) members

theorem shorthandValue (key : Node) : Rel (shorthandValue sub key) (shorthandValue sub' key) := by
  refine laws.bind (laws.acceptText _ _) fun _ => either ?_ (laws.pure key)
  exact laws.bind (operandAt hsub _ _ rfl) fun _ => laws.pure _

theorem property (owner : NodeKind) : Rel (property sub owner) (property sub' owner) := by
  refine laws.bind laws.asyncWord fun _ => laws.bind (laws.acceptText _ _) fun _ => ?_
  refine laws.bind laws.propertyKind fun _ => laws.bind (laws.memberKey hsub _) fun key => ?_
  refine laws.bind (laws.isAt _) fun _ => either ?_ ?_
  · exact laws.bind (laws.functionRest hsub _ _ _ _) fun _ => laws.pure _
  · refine laws.bind (laws.accept _) fun _ => either ?_ (either ?_ (laws.wanting _))
    · exact laws.bind (operandAt hsub _ _ (Frame.hosts_value owner)) fun _ => laws.pure _
    · exact laws.bind (laws.shorthandValue hsub _) fun _ => laws.pure _

theorem objectMember (owner : NodeKind) : Rel (objectMember sub owner) (objectMember sub' owner) :=
  laws.bind (laws.isAt _) fun _ => either (laws.spread hsub) (laws.property hsub owner)

theorem object : Rel (object sub) (object sub') := by
  rw [object_eq_surroundings, object_eq_surroundings]
  refine laws.surroundings fun halike => ?_
  rw [halike.pattern]
  exact laws.bind laws.nextToken fun _ =>
    laws.bind (laws.closedList (laws.within _ (laws.objectMember hsub _)) _) fun _ => laws.pure _

theorem extension (kind : TokenKind) (operand : Node) :
    Rel (extension sub kind operand) (extension sub' kind operand) := by
  unfold ParserM.extension
  split
  · exact laws.memberAccess operand
  · exact laws.computedAccess hsub operand
  · exact laws.call hsub operand
  · exact laws.followingOperator hsub operand
  · exact laws.assignment hsub operand
  · exact laws.conditional hsub operand
  · exact laws.sequence hsub operand
  · exact laws.arrowFromOperand hsub operand
  · exact laws.labeled hsub operand
  · exact laws.unexpected

variable {opensArrow opensArrow' : ParserM Bool} (harrow : Rel opensArrow opensArrow')
include harrow

theorem opening (word : Token) (start stop : Nat) :
    Rel (opening opensArrow sub word) (opening opensArrow' sub' { word with start, stop }) := by
  unfold ParserM.opening
  dsimp only
  split
  iterate 5 exact laws.identifier
  · exact laws.reservedWord
  iterate 4 exact laws.literal
  · exact laws.template hsub
  · exact laws.bind laws.nextToken fun _ => laws.pure _
  · exact laws.function hsub
  · exact laws.classDefinition hsub
  · exact laws.construction hsub
  · exact laws.yieldOperand hsub
  · exact laws.spread hsub
  · exact laws.openingParen hsub harrow
  · exact laws.array hsub
  · change Rel
      (ParserM.surroundings >>= fun context =>
        if context.expectsBlock then ParserM.block sub else ParserM.object sub)
      (ParserM.surroundings >>= fun context =>
        if context.expectsBlock then ParserM.block sub' else ParserM.object sub')
    refine laws.surroundings fun halike => ?_
    rw [halike.block]
    exact either (laws.block hsub) (laws.object hsub)
  · exact either laws.regexOperand (laws.leadingOperator hsub)
  · exact either laws.regexOperand laws.unexpected
  · exact laws.unexpected

theorem fresh : Rel (fresh opensArrow sub) (fresh opensArrow' sub') :=
  laws.token fun word start stop => laws.opening hsub harrow word start stop

end Rules

section Statements

variable {sub sub' : Goal → ParserM Node}
  (hall : ∀ {frame : Frame} (goal : Goal), frame.isEnclosing = true →
    Rel (ParserM.within frame (sub goal)) (ParserM.within frame (sub' goal)))
include hall

omit laws in
theorem hosted {frame : Frame} (goal : Goal) (h : frame.hosts goal = true) :
    Rel (ParserM.within frame (sub goal)) (ParserM.within frame (sub' goal)) :=
  hall goal (Frame.isEnclosing_of_hosts h)

omit laws in
theorem operandWithin (kind : NodeKind) (slot : Slot) :
    Rel (ParserM.operandAt sub kind slot) (ParserM.operandAt sub' kind slot) :=
  hall .operand rfl

omit laws in
theorem statementWithin (kind : NodeKind) (slot : Slot) :
    Rel (ParserM.statementAt sub kind slot) (ParserM.statementAt sub' kind slot) :=
  hall .statement rfl

theorem expressionStatement : Rel (expressionStatement sub) (expressionStatement sub') := by
  refine laws.bind (operandWithin hall _ _) fun _ => either (laws.pure _) ?_
  exact laws.bind (laws.accept _) fun _ => laws.pure _

theorem declarator : Rel (declarator sub) (declarator sub') := by
  refine laws.bind (operandWithin hall _ _) fun _ => laws.bind (laws.acceptText _ _) fun _ => ?_
  exact either (laws.bind (operandWithin hall _ _) fun _ => laws.pure _) (laws.pure _)

theorem declarators {r r' : Nat} (hr : r ≤ r') :
    Rel (declarators sub r) (declarators sub' r') := by
  refine laws.rounds rfl (fun ih => ?_) hr
  refine laws.bind (laws.declarator hall) fun _ => laws.bind (laws.isAt _) fun _ => either ?_ ?_
  -- whichever token stands behind the comma, the next declarator starts with it
  · refine laws.nextTokenIn (by simp [ruleModes]) ?_ fun _ _ _ => ?_
    · exact laws.bind ih fun _ => laws.pure _
    · exact laws.bind ih fun _ => laws.pure _
  · exact laws.pure _

theorem variableDeclaration : Rel (variableDeclaration sub) (variableDeclaration sub') := by
  refine laws.token fun word start stop => ?_
  dsimp only
  cases VariableKind.ofKeyword? word.value with
  | none => exact laws.unexpected
  | some kind =>
    have rest : Rel
        (do
          let declarations ← ParserM.declarators sub (← ParserM.budget)
          Pure.pure (Node.variableDeclaration kind declarations))
        (do
          let declarations ← ParserM.declarators sub' (← ParserM.budget)
          Pure.pure (Node.variableDeclaration kind declarations)) :=
      laws.budget fun hr => laws.bind (laws.declarators hall hr) fun _ => laws.pure _
    exact laws.nextTokenIn (by simp [ruleModes]) rest fun _ _ _ => rest

omit hall in
theorem enterParens : Rel enterParens enterParens := by
  refine laws.nextTokenIn (by simp [ruleModes]) ?_ fun _ _ _ => laws.nextToken
  exact laws.rereadToken (by simp [ruleModes]) (laws.wanting _) fun _ _ _ => laws.wanting _

theorem condition (kind : NodeKind) (slot : Slot) :
    Rel (condition sub kind slot) (condition sub' kind slot) :=
  laws.bind (operandWithin hall _ _) fun _ => laws.bind (laws.require _) fun _ => laws.pure _

theorem ifStatement : Rel (ifStatement sub) (ifStatement sub') := by
  refine laws.bind laws.enterParens fun _ => laws.bind (laws.condition hall _ _) fun _ => ?_
  refine laws.bind (statementWithin hall _ _) fun _ => laws.bind (laws.accept _) fun _ => ?_
  exact either (laws.bind (statementWithin hall _ _) fun _ => laws.pure _) (laws.pure _)

theorem whileStatement : Rel (whileStatement sub) (whileStatement sub') :=
  laws.bind laws.enterParens fun _ => laws.bind (laws.condition hall _ _) fun _ =>
    laws.bind (statementWithin hall _ _) fun _ => laws.pure _

theorem doWhile : Rel (doWhile sub) (doWhile sub') := by
  refine laws.bind laws.nextToken fun _ => laws.bind (statementWithin hall _ _) fun _ => ?_
  refine laws.bind (laws.isAt _) fun _ => either ?_ (laws.wanting _)
  exact laws.bind laws.enterParens fun _ => laws.bind (laws.condition hall _ _) fun _ =>
    laws.bind (laws.accept _) fun _ => laws.pure _

theorem forStart : Rel (forStart sub) (forStart sub') := by
  refine laws.token fun word start stop => ?_
  dsimp only
  split
  · exact laws.pure none
  · exact laws.bind (laws.within _ (laws.variableDeclaration hall)) fun _ => laws.pure _
  · exact laws.bind (operandWithin hall _ _) fun _ => laws.pure _

theorem forClause (close : TokenKind) (slot : Slot) :
    Rel (forClause sub close slot) (forClause sub' close slot) := by
  refine laws.bind (laws.isAt _) fun _ => either (laws.pure none) ?_
  exact laws.bind (operandWithin hall _ _) fun _ => laws.pure _

theorem forRest (start : Option Node) : Rel (forRest sub start) (forRest sub' start) :=
  laws.bind (laws.forClause hall _ _) fun _ => laws.bind (laws.require _) fun _ =>
    laws.bind (laws.forClause hall _ _) fun _ => laws.bind (laws.require _) fun _ =>
      laws.bind (statementWithin hall _ _) fun _ => laws.pure _

theorem forEachRest (left : Node) (awaits : Bool) :
    Rel (forEachRest sub left awaits) (forEachRest sub' left awaits) := by
  refine laws.token fun word start stop => ?_
  have hk : forEachKind? { word with start, stop } = forEachKind? word := rfl
  rw [hk]
  cases forEachKind? word with
  | none => exact laws.complaint (by decide)
  | some kind =>
    exact laws.bind laws.nextToken fun _ => laws.bind (laws.condition hall _ _) fun _ =>
      laws.bind (statementWithin hall _ _) fun _ => laws.pure _

theorem forStatement : Rel (forStatement sub) (forStatement sub') := by
  refine laws.token fun word _ _ => laws.bind laws.nextToken fun _ => ?_
  refine laws.bind (laws.forStart hall) fun start => laws.bind (laws.accept _) fun _ => ?_
  refine either (laws.forRest hall start) ?_
  cases start with
  | some left => exact laws.forEachRest hall left _
  | none => exact laws.unexpected

theorem caseTest : Rel (caseTest sub) (caseTest sub') := by
  refine laws.token fun word start stop => ?_
  dsimp only
  split
  · exact laws.bind laws.nextToken fun _ => laws.bind (operandWithin hall _ _) fun _ =>
      laws.pure _
  · exact laws.bind laws.nextToken fun _ => laws.pure none
  · exact laws.unexpected

theorem switchCase : Rel (switchCase sub) (switchCase sub') :=
  laws.bind (laws.caseTest hall) fun _ => laws.bind (laws.require _) fun _ =>
    laws.budget fun hr =>
      laws.bind (laws.manyWhile (statementWithin hall _ _) (fun _ _ _ => rfl) hr) fun _ => laws.pure _

theorem switchStatement : Rel (switchStatement sub) (switchStatement sub') :=
  laws.bind laws.enterParens fun _ => laws.bind (laws.condition hall _ _) fun _ =>
    laws.bind (laws.require _) fun _ => laws.budget fun hr =>
      laws.bind (laws.manyWhile (laws.switchCase hall) (fun _ _ _ => rfl) hr) fun _ =>
        laws.bind (laws.require _) fun _ => laws.pure _

theorem returnStatement : Rel (returnStatement sub) (returnStatement sub') := by
  refine laws.nextTokenIn (by simp [ruleModes]) (laws.pure _) fun word _ _ => ?_
  refine either (laws.bind laws.nextToken fun _ => laws.pure _) (either (laws.pure _) ?_)
  exact laws.bind (operandWithin hall _ _) fun _ => laws.bind (laws.accept _) fun _ => laws.pure _

omit hall in
theorem jump : Rel jump jump :=
  laws.token fun _ _ _ => laws.bind laws.nextToken fun _ =>
    laws.bind (laws.accept _) fun _ => laws.pure _

theorem declarationStatement : Rel (declarationStatement sub) (declarationStatement sub') :=
  laws.bind (laws.variableDeclaration hall) fun _ => laws.bind (laws.accept _) fun _ => laws.pure _

omit hall in
theorem emptyStatement : Rel emptyStatement emptyStatement :=
  laws.bind laws.nextToken fun _ => laws.pure _

omit hall in
theorem moduleName : Rel moduleName moduleName :=
  laws.bind (laws.isAt _) fun _ => either laws.literal (laws.wanting _)

omit hall in
theorem renamed (first : Node) : Rel (renamed first) (renamed first) :=
  laws.bind (laws.acceptText _ _) fun _ => either laws.name (laws.pure first)

omit hall in
theorem importSpecifier : Rel importSpecifier importSpecifier :=
  laws.bind laws.name fun _ => laws.bind (laws.renamed _) fun _ => laws.pure _

omit hall in
theorem importBindings : Rel importBindings importBindings := by
  refine laws.bind (laws.acceptText _ _) fun _ => either ?_ ?_
  · exact laws.bind (laws.requireText _ _) fun _ => laws.bind laws.name fun _ => laws.pure _
  · exact laws.bind (laws.require _) fun _ => laws.closedList laws.importSpecifier _

omit hall in
theorem importSpecifiers : Rel importSpecifiers importSpecifiers := by
  refine laws.current laws.importBindings fun word _ _ => either ?_ laws.importBindings
  refine laws.bind laws.name fun _ => laws.bind (laws.accept _) fun _ => either ?_ (laws.pure _)
  exact laws.bind laws.importBindings fun _ => laws.pure _

omit hall in
theorem importDeclaration : Rel importDeclaration importDeclaration := by
  refine laws.bind laws.nextToken fun _ => laws.bind (laws.isAt _) fun _ => ?_
  -- both kinds of import end with the name of the module
  have source (specifiers : List Node) : (fun step : ParserM Node => Rel step step) (do
      let source ← ParserM.moduleName
      let _ ← ParserM.accept .semicolon
      Pure.pure (Node.importDeclaration specifiers source)) :=
    laws.bind laws.moduleName fun _ => laws.bind (laws.accept _) fun _ => laws.pure _
  refine either (laws.bind (laws.pure _) source) ?_
  exact laws.bind (laws.within _ laws.importSpecifiers) fun _ =>
    laws.bind (laws.requireText _ _) fun _ => laws.bind (laws.pure _) source

omit hall in
theorem exportSpecifier : Rel exportSpecifier exportSpecifier :=
  laws.bind laws.name fun _ => laws.bind (laws.renamed _) fun _ => laws.pure _

omit hall in
theorem exportNamed : Rel exportNamed exportNamed := by
  refine laws.bind laws.nextToken fun _ => laws.bind (laws.within _ ?_) fun specifiers => ?_
  · exact laws.budget fun hr => laws.commaList laws.exportSpecifier _ hr
  -- the names may come from another module; the statement ends the same way
  · have ending (source : Option Node) : (fun step : ParserM Node => Rel step step) (do
        let _ ← ParserM.accept .semicolon
        Pure.pure (Node.exportNamed specifiers source)) :=
      laws.bind (laws.accept _) fun _ => laws.pure _
    refine laws.bind (laws.require _) fun _ => laws.bind (laws.acceptText _ _) fun _ => either ?_ ?_
    · exact laws.bind laws.moduleName fun _ => laws.bind (laws.pure _) ending
    · exact laws.bind (laws.pure _) ending

theorem exportStatement : Rel (exportStatement sub) (exportStatement sub') := by
  refine laws.bind laws.nextToken fun _ => laws.bind (laws.isAt _) fun _ => ?_
  refine either laws.exportNamed ?_
  exact laws.bind (statementWithin hall _ _) fun _ => laws.pure _

theorem exportDefault : Rel (exportDefault sub) (exportDefault sub') := by
  refine laws.bind laws.nextToken fun _ => laws.token fun word start stop => ?_
  dsimp only
  split
  · exact laws.bind (statementWithin hall _ _) fun _ => laws.pure _
  · exact laws.bind (statementWithin hall _ _) fun _ => laws.pure _
  · exact laws.bind (operandWithin hall _ _) fun _ => laws.bind (laws.accept _) fun _ =>
      laws.pure _

theorem statement : Rel (statement sub) (statement sub') := by
  refine laws.token fun word start stop => ?_
  dsimp only
  split
  · exact laws.block (hosted hall)
  · exact laws.emptyStatement
  · exact laws.declarationStatement hall
  · exact laws.function (hosted hall)
  · exact laws.classDefinition (hosted hall)
  · exact laws.ifStatement hall
  · exact laws.forStatement hall
  · exact laws.whileStatement hall
  · exact laws.doWhile hall
  · exact laws.switchStatement hall
  · exact laws.returnStatement hall
  · exact laws.jump
  · exact laws.jump
  · exact laws.importDeclaration
  · exact laws.exportStatement hall
  · exact laws.exportDefault hall
  · exact laws.expressionStatement hall

end Statements

section Goals

variable (hgoes : ∀ operand word, Rel (continues operand word) (continues operand word))
include hgoes

theorem extend {sub sub' : Goal → ParserM Node}
    (hsub : ∀ {frame : Frame} (goal : Goal), frame.hosts goal = true →
      Rel (ParserM.within frame (sub goal)) (ParserM.within frame (sub' goal)))
    {opensArrow opensArrow' : ParserM Bool} (operand : Node) {r r' : Nat} (hr : r ≤ r') :
    Rel (extend opensArrow sub operand r) (extend opensArrow' sub' operand r') :=
  laws.toPairElementary.extend hgoes
    (fun operand kind => laws.handOver _ operand fun x => laws.extension hsub kind x) operand hr

variable {opensArrow opensArrow' : ParserM Bool} (harrow : Rel opensArrow opensArrow')
include harrow

theorem freshOperand {sub sub' : Goal → ParserM Node}
    (hsub : ∀ {frame : Frame} (goal : Goal), frame.hosts goal = true →
      Rel (ParserM.within frame (sub goal)) (ParserM.within frame (sub' goal))) :
    Rel (ParserM.freshOperand opensArrow sub) (ParserM.freshOperand opensArrow' sub') :=
  laws.bind (laws.fresh hsub harrow) fun first => laws.budget fun hr =>
    laws.extend hgoes hsub first hr

/-- What relates the parts of the rules relates every statement and operand in a construct, by
induction on the room that is left for constructs inside each other. The second parse may have more
of it. -/
theorem goal {room room' : Nat} (hr : room ≤ room') {frame : Frame} (goal : Goal)
    (hf : frame.isEnclosing = true) :
    Rel (ParserM.within frame (ParserM.goal opensArrow room goal))
      (ParserM.within frame (ParserM.goal opensArrow' room' goal)) := by
  induction room generalizing room' frame goal with
  | zero => exact laws.within frame laws.outOfSteps
  | succ room ih =>
    obtain ⟨room', rfl⟩ : ∃ more, room' = more + 1 := Nat.exists_eq_add_one.mpr (by omega)
    have hsub : ∀ {frame : Frame} (goal : Goal), frame.isEnclosing = true →
        Rel (ParserM.within frame (ParserM.goal opensArrow room goal))
          (ParserM.within frame (ParserM.goal opensArrow' room' goal)) :=
      ih (Nat.le_of_succ_le_succ hr)
    cases goal with
    | statement => exact laws.within frame (laws.statement hsub)
    | operand =>
      rw [within_goal_operand hf, within_goal_operand hf]
      exact laws.within frame (laws.freshOperand hgoes harrow (hosted hsub))

end Goals

end PairCompositional

namespace Elementary

variable {Holds : ∀ {α : Type}, ParserM α → Prop} (laws : Elementary @Holds)
include laws

theorem token : Holds token := by
  refine laws.bind laws.current fun word => ?_
  cases word with
  | some word => exact laws.pure word
  | none => exact laws.unexpected

theorem nextToken : Holds nextToken := laws.pair.nextToken

theorem require (kind : TokenKind) : Holds (require kind) := laws.pair.require kind

theorem closedList {α : Type} (close : TokenKind) {item : ParserM α} (h : Holds item) :
    Holds (closedList close item) :=
  @PairElementary.closedList _ laws.pair α item item h close

theorem continues (operand : Node) (word : Token) : Holds (continues operand word) :=
  laws.bind laws.surroundings fun _ => laws.pure _

end Elementary

namespace Compositional

variable {Holds : ∀ {α : Type}, ParserM α → Prop} (laws : Compositional @Holds)
include laws

section Rules

variable {sub : Goal → ParserM Node}
  (hsub : ∀ {frame : Frame} (goal : Goal), frame.isEnclosing = true →
    Holds (ParserM.within frame (sub goal)))
include hsub

omit laws in
theorem hosted {frame : Frame} (goal : Goal) (h : frame.hosts goal = true) :
    Holds (ParserM.within frame (sub goal)) :=
  hsub goal (Frame.isEnclosing_of_hosts h)

theorem statement : Holds (statement sub) :=
  @PairCompositional.statement _ laws.pair sub sub hsub

theorem extension (kind : TokenKind) (operand : Node) : Holds (extension sub kind operand) :=
  @PairCompositional.extension _ laws.pair sub sub (hosted hsub) kind operand

theorem extend {opensArrow : ParserM Bool} (operand : Node) (rounds : Nat) :
    Holds (extend opensArrow sub operand rounds) :=
  @PairCompositional.extend _ laws.pair laws.toElementary.continues sub sub (hosted hsub) opensArrow opensArrow
    operand rounds rounds (Nat.le_refl rounds)

theorem opening {opensArrow : ParserM Bool} (harrow : Holds opensArrow) (word : Token) :
    Holds (opening opensArrow sub word) :=
  @PairCompositional.opening _ laws.pair sub sub (hosted hsub) opensArrow opensArrow harrow word
    word.start word.stop

theorem fresh {opensArrow : ParserM Bool} (harrow : Holds opensArrow) :
    Holds (ParserM.fresh opensArrow sub) :=
  @PairCompositional.fresh _ laws.pair sub sub (hosted hsub) opensArrow opensArrow harrow

theorem freshOperand {opensArrow : ParserM Bool} (harrow : Holds opensArrow) :
    Holds (ParserM.freshOperand opensArrow sub) :=
  @PairCompositional.freshOperand _ laws.pair laws.toElementary.continues opensArrow opensArrow harrow sub sub
    (hosted hsub)

end Rules

theorem goal {opensArrow : ParserM Bool} (harrow : Holds opensArrow) (room : Nat) {frame : Frame}
    (goal : Goal) (hf : frame.isEnclosing = true) :
    Holds (ParserM.within frame (ParserM.goal opensArrow room goal)) :=
  @PairCompositional.goal _ laws.pair laws.toElementary.continues opensArrow opensArrow harrow room room
    (Nat.le_refl room) frame goal hf

end Compositional

end ParserM

end ScriptTree
