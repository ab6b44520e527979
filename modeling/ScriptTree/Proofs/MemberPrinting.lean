import ScriptTree.Proofs.ObjectReading
import ScriptTree.Proofs.StatementPrinting

/-!
Members of classes and objects survive printing, but for asynchronous methods that are called
`function`.
-/

namespace ScriptTree

open Printer

/-- A class of members. -/
def classNode (name : Option String) (members : List ClassMember) : Node :=
  .classDeclaration (name.map .identifier) none (.classBody (members.map ClassMember.node))

/-- The statement that assigns an object of methods to a name. -/
def objectStatement (target : String) (methods : List EmptyMethod) : Node :=
  .expressionStatement (.assignment "=" (.identifier target)
    (.object .expression (methods.map EmptyMethod.property)))

section Texts

variable (level : Nat)

theorem MemberKey.toList_keyText (key : MemberKey) :
    (keyText key.node key.isComputed (bare {} level key.node)).toList = key.text := by
  cases key with
  | named name => rfl
  | string contents raw => rfl
  | computed name =>
    have hb : keyText (computed name).node (computed name).isComputed
        (bare {} level (computed name).node) = "[" ++ name ++ "]" := rfl
    rw [hb, String.toList_append, String.toList_append]
    rfl

theorem EmptyMethod.toList_methodText (inner : EmptyMethod) (bareValue : String) :
    (methodText (accessorText inner.kind) inner.key.node (emptyFunction inner.isAsync inner.isGenerator)
      inner.key.isComputed (bare {} level inner.key.node) bareValue
      (tail {} level (emptyFunction inner.isAsync inner.isGenerator))).toList = inner.text := by
  obtain ⟨isAsync, isGenerator, kind, key⟩ := inner
  have hm : methodText (accessorText kind) key.node (emptyFunction isAsync isGenerator) key.isComputed
      (bare {} level key.node) bareValue (tail {} level (emptyFunction isAsync isGenerator)) =
      asyncText isAsync ++ starText isGenerator ++ accessorText kind ++
        keyText key.node key.isComputed (bare {} level key.node) ++ "() \x7b\x7d" := rfl
  rw [hm]
  simp only [String.toList_append, MemberKey.toList_keyText]
  cases isAsync <;> cases isGenerator <;> cases kind <;> rfl

theorem ClassMember.toList_bare (member : ClassMember) :
    (alone member.node (bare {} level member.node)).toList = member.text := by
  have hflag (isStatic : Bool) : (staticText isStatic).toList =
      (flag isStatic .static).flatMap fun modifier => modifier.spelling ++ modifier.gap := by
    cases isStatic <;> rfl
  cases member with
  | method isStatic inner =>
    have hb : alone (method isStatic inner).node (bare {} level (method isStatic inner).node) =
        staticText isStatic ++ methodText (accessorText inner.kind) inner.key.node
          (emptyFunction inner.isAsync inner.isGenerator) inner.key.isComputed
          (bare {} level inner.key.node)
          (bare {} level (emptyFunction inner.isAsync inner.isGenerator))
          (tail {} level (emptyFunction inner.isAsync inner.isGenerator)) := rfl
    rw [hb, String.toList_append, inner.toList_methodText, hflag]
    simp [ClassMember.text, EmptyMethod.text, memberText]
  | field isStatic key value =>
    have hb : alone (field isStatic key value).node (bare {} level (field isStatic key value).node) =
        staticText isStatic ++ keyText key.node key.isComputed (bare {} level key.node) ++
          optional (value.map .identifier) (bareOption {} level (value.map .identifier))
            (fun node text => " = " ++ placed .item node text) ++ ";" := rfl
    have hv : (optional (value.map .identifier) (bareOption {} level (value.map .identifier))
        (fun node text => " = " ++ placed .item node text) ++ ";").toList = ParserM.fieldTail value := by
      rw [String.toList_append]
      cases value with
      | none => rfl
      | some value =>
        have he : optional ((some value).map .identifier)
            (bareOption {} level ((some value).map .identifier))
            (fun node text => " = " ++ placed .item node text) = " = " ++ value := rfl
        rw [he, String.toList_append]
        rfl
    rw [hb, String.append_assoc, String.toList_append, hv, String.toList_append, hflag,
      MemberKey.toList_keyText]
    rfl

theorem toList_aloneLines (members : List ClassMember) :
    (aloneLines {} level (members.map ClassMember.node)
      (bares {} level (members.map ClassMember.node))).toList = membersText level members := by
  rw [aloneLines, bares_eq_map, List.zipWith_map_right, List.zipWith_self, List.map_map,
    String.toList_join, List.flatMap_map]
  refine congrArg List.flatten (List.map_congr_left fun member _ => ?_)
  rw [Function.comp_apply, String.toList_append, member.toList_bare]
  rfl

theorem toList_class (name : Option String) (members : List ClassMember) :
    (bare {} level (classNode name members)).toList = classText level name members := by
  have hb : bare {} level (classNode name members) = "class" ++
      optional (name.map .identifier) (bareOption {} level (name.map .identifier))
        (fun node text => " " ++ placed .any node text) ++ "" ++ " " ++
      classBodyText {} level (members.map ClassMember.node)
        (bares {} (level + 1) (members.map ClassMember.node)) := rfl
  have hname : (optional (name.map .identifier) (bareOption {} level (name.map .identifier))
      (fun node text => " " ++ placed .any node text)).toList = clauseText name := by
    cases name with
    | none => rfl
    | some name =>
      have he : optional ((some name).map .identifier) (bareOption {} level ((some name).map .identifier))
          (fun node text => " " ++ placed .any node text) = " " ++ name := rfl
      rw [he, String.toList_append]
      rfl
  have hbody : (classBodyText {} level (members.map ClassMember.node)
      (bares {} (level + 1) (members.map ClassMember.node))).toList =
        '\x7b' :: (classBody level members ++ ['\x7d']) := by
    cases members with
    | nil => simp [classBodyText, classBody]
    | cons member members =>
      have hlines := toList_aloneLines (level + 1) (member :: members)
      rw [List.map_cons] at hlines
      simp [classBodyText, classBody, hlines, marginText]
  rw [hb]
  unfold classText
  simp [hname, hbody]

theorem EmptyMethod.toList_property (inner : EmptyMethod) :
    (placed .item inner.property (bare {} level inner.property)).toList = inner.text := by
  have hb : placed .item inner.property (bare {} level inner.property) =
      methodText (accessorText inner.kind) inner.key.node (emptyFunction inner.isAsync inner.isGenerator)
        inner.key.isComputed (bare {} level inner.key.node)
        (bare {} level (emptyFunction inner.isAsync inner.isGenerator))
        (tail {} level (emptyFunction inner.isAsync inner.isGenerator)) := by
    obtain ⟨isAsync, isGenerator, kind, key⟩ := inner
    cases kind <;> rfl
  rw [hb, inner.toList_methodText]

theorem toList_object (methods : List EmptyMethod) :
    (bare {} level (.object .expression (methods.map EmptyMethod.property))).toList =
      objectText methods := by
  have hb : bare {} level (.object .expression (methods.map EmptyMethod.property)) =
      if (methods.map EmptyMethod.property).isEmpty then "\x7b\x7d"
      else "\x7b " ++ commaItems (methods.map EmptyMethod.property)
        (bares {} level (methods.map EmptyMethod.property)) ++ " \x7d" := rfl
  have hitems : (commaItems (methods.map EmptyMethod.property)
      (bares {} level (methods.map EmptyMethod.property))).toList =
        ", ".toList.intercalate (methods.map EmptyMethod.text) := by
    rw [commaItems, bares_eq_map, List.zipWith_map_right, List.zipWith_self, List.map_map,
      String.toList_intercalate, List.map_map]
    refine congrArg _ (List.map_congr_left fun inner _ => ?_)
    exact inner.toList_property level
  rw [hb, objectText, List.isEmpty_map]
  split
  · rfl
  · simp [hitems]

theorem lineText_class (name : Option String) (members : List ClassMember) :
    (classNode name members).lineText level = classText level name members :=
  toList_class level name members

theorem lineText_object (target : String) (methods : List EmptyMethod) :
    (objectStatement target methods).lineText level =
      ParserM.assignmentText target methods ++ [';'] := by
  have hb : asStatement (objectStatement target methods) (bare {} level (objectStatement target methods)) =
      target ++ " " ++ "=" ++ " " ++
        bare {} level (.object .expression (methods.map EmptyMethod.property)) ++ ";" := rfl
  rw [Node.lineText, hb, ParserM.assignmentText]
  simp [toList_object]

end Texts

namespace MemberKey

theorem same_printed (key : MemberKey) : key.printed.node.same key.node = true := by
  cases key with
  | named name => exact ModuleDeclaration.same_identifier name
  | string contents raw => exact beq_self_eq_true contents
  | computed name => exact ModuleDeclaration.same_identifier name

end MemberKey

theorem same_emptyFunction (isAsync isGenerator : Bool) :
    (emptyFunction isAsync isGenerator).same (emptyFunction isAsync isGenerator) = true := by
  cases isAsync <;> cases isGenerator <;> rfl

theorem EmptyMethod.same_printed (inner : EmptyMethod) :
    inner.printed.property.same inner.property = true := by
  obtain ⟨isAsync, isGenerator, kind, key⟩ := inner
  have hs : (EmptyMethod.property ⟨isAsync, isGenerator, kind, key.printed⟩).same
      (EmptyMethod.property ⟨isAsync, isGenerator, kind, key⟩) =
      (key.printed.node.same key.node &&
        (emptyFunction isAsync isGenerator).same (emptyFunction isAsync isGenerator) &&
        kind.asProperty == kind.asProperty && key.printed.isComputed == key.isComputed &&
        (kind.asProperty == .plain) == (kind.asProperty == .plain)) := rfl
  rw [EmptyMethod.printed, hs, key.same_printed, same_emptyFunction, key.isComputed_printed]
  simp

theorem same_optionalName (name : Option String) :
    Node.sameOption (name.map .identifier) (name.map .identifier) = true := by
  cases name with
  | none => rfl
  | some name => exact ModuleDeclaration.same_identifier name

theorem ClassMember.same_readAs {member : ClassMember} (h : ¬member.IsFused) :
    ∃ again, member.readAs = [again] ∧ again.same member.node = true := by
  cases member with
  | method isStatic inner =>
    refine ⟨_, readAs_of_not_fused h, ?_⟩
    obtain ⟨isAsync, isGenerator, kind, key⟩ := inner
    have hs : (Node.methodDefinition isStatic kind key.printed.node key.isComputed
        (emptyFunction isAsync isGenerator)).same
          (ClassMember.node (method isStatic ⟨isAsync, isGenerator, kind, key⟩)) =
        (isStatic == isStatic && kind == kind && key.printed.node.same key.node &&
          key.isComputed == key.isComputed &&
          (emptyFunction isAsync isGenerator).same (emptyFunction isAsync isGenerator)) := rfl
    rw [hs, key.same_printed, same_emptyFunction]
    simp
  | field isStatic key value =>
    refine ⟨_, rfl, ?_⟩
    have hs : (Node.propertyDefinition isStatic key.printed.node key.isComputed
        (value.map .identifier)).same (ClassMember.node (field isStatic key value)) =
        (isStatic == isStatic && key.printed.node.same key.node && key.isComputed == key.isComputed &&
          Node.sameOption (value.map .identifier) (value.map .identifier)) := rfl
    rw [hs, key.same_printed, same_optionalName]
    simp

theorem Node.sameList_map {α : Type} {again node : α → Node} {items : List α}
    (h : ∀ a ∈ items, (again a).same (node a) = true) :
    Node.sameList (items.map again) (items.map node) = true := by
  induction items with
  | nil => rfl
  | cons first items ih =>
    have hrest := ih fun a ha => h a (List.mem_cons_of_mem first ha)
    exact Bool.and_eq_true_iff.mpr ⟨h first List.mem_cons_self, hrest⟩

theorem Node.length_eq_of_sameList {nodes others : List Node} (h : Node.sameList nodes others = true) :
    nodes.length = others.length := by
  induction nodes generalizing others with
  | nil =>
    cases others with
    | nil => rfl
    | cons other others => cases h
  | cons node nodes ih =>
    cases others with
    | nil => cases h
    | cons other others =>
      have hb : (node.same other && Node.sameList nodes others) = true := h
      rw [List.length_cons, List.length_cons, ih (Bool.and_eq_true_iff.mp hb).2]

section Members

variable {members : List ClassMember}

theorem ClassMember.length_readAs (member : ClassMember) :
    1 ≤ member.readAs.length ∧ member.readAs.length ≤ 2 ∧
      (member.IsFused → member.readAs.length = 2) := by
  cases member with
  | method isStatic inner =>
    by_cases hf : inner.IsFused
    · rw [readAs_of_fused hf]
      exact ⟨Nat.le_succ 1, le_rfl, fun _ => rfl⟩
    · rw [readAs_of_not_fused hf]
      exact ⟨le_rfl, Nat.le_succ 1, fun h => absurd h hf⟩
  | field isStatic key value => exact ⟨le_rfl, Nat.le_succ 1, nofun⟩

/-- No more members are read than there are characters. -/
theorem length_readAs_le (level : Nat) (members : List ClassMember) :
    (members.flatMap ClassMember.readAs).length ≤ (membersText level members).length := by
  induction members with
  | nil => exact le_rfl
  | cons member members ih =>
    have htwo := member.length_readAs.2.1
    have htext : 1 ≤ member.text.length := by
      cases member with
      | method isStatic inner => simp [ClassMember.text, emptyTail]
      | field isStatic key value =>
        have hm : ';' ∈ (ClassMember.field isStatic key value).text := by
          simp [ClassMember.text, ParserM.fieldTail]
        exact List.length_pos_of_mem hm
    have hmargin : 1 ≤ (marginText level).length := by simp [marginText_eq]
    rw [membersText_cons, List.flatMap_cons]
    simp only [List.length_append]
    omega

theorem same_members (hf : ∀ member ∈ members, ¬member.IsFused) :
    Node.sameList (members.flatMap ClassMember.readAs) (members.map ClassMember.node) = true := by
  induction members with
  | nil => rfl
  | cons member members ih =>
    obtain ⟨again, hr, hs⟩ := ClassMember.same_readAs (hf member List.mem_cons_self)
    have hrest := ih fun other hm => hf other (List.mem_cons_of_mem member hm)
    rw [List.flatMap_cons, hr]
    exact Bool.and_eq_true_iff.mpr ⟨hs, hrest⟩

/-- A fused method makes one member more. -/
theorem length_lt_readAs (hf : ∃ member ∈ members, member.IsFused) :
    members.length < (members.flatMap ClassMember.readAs).length := by
  have hle (others : List ClassMember) :
      others.length ≤ (others.flatMap ClassMember.readAs).length := by
    induction others with
    | nil => exact le_rfl
    | cons member others ih =>
      have hone := member.length_readAs.1
      rw [List.flatMap_cons, List.length_append, List.length_cons]
      omega
  obtain ⟨fused, hm, hfused⟩ := hf
  obtain ⟨earlier, later, rfl⟩ := List.append_of_mem hm
  have htwo := fused.length_readAs.2.2 hfused
  have hearlier := hle earlier
  have hlater := hle later
  simp only [List.flatMap_append, List.flatMap_cons, List.length_append, List.length_cons]
  omega

/-- What a class is read as is the same class if none of its members is fused, and otherwise another
one, with more members. -/
theorem same_class_iff (name : Option String) (members : List ClassMember) :
    (Node.classDeclaration (name.map .identifier) none
      (.classBody (members.flatMap ClassMember.readAs))).same (classNode name members) = true ↔
        ∀ member ∈ members, ¬member.IsFused := by
  have hs : (Node.classDeclaration (name.map .identifier) none
      (.classBody (members.flatMap ClassMember.readAs))).same (classNode name members) =
      (Node.sameOption (name.map .identifier) (name.map .identifier) && true &&
        Node.sameList (members.flatMap ClassMember.readAs) (members.map ClassMember.node)) := rfl
  rw [hs, same_optionalName, Bool.true_and, Bool.true_and]
  refine ⟨fun hsame member hm hfused => ?_, same_members⟩
  have hlt := length_lt_readAs ⟨member, hm, hfused⟩
  rw [Node.length_eq_of_sameList hsame, List.length_map] at hlt
  exact lt_irrefl _ hlt

end Members

/-- The assignment of an object is the same with its keys as they are written. -/
theorem same_objectStatement (target : String) (methods : List EmptyMethod) :
    (objectStatement target (methods.map EmptyMethod.printed)).same (objectStatement target methods) =
      true := by
  have hs : (objectStatement target (methods.map EmptyMethod.printed)).same
      (objectStatement target methods) = ("=" == "=" && target == target && (true &&
        Node.sameList ((methods.map EmptyMethod.printed).map EmptyMethod.property)
          (methods.map EmptyMethod.property))) := rfl
  rw [hs, List.map_map, beq_self_eq_true, beq_self_eq_true]
  exact Node.sameList_map fun inner _ => inner.same_printed

theorem length_le_objectText (methods : List EmptyMethod) :
    methods.length ≤ (objectText methods).length := by
  have hitems : methods.length ≤ (", ".toList.intercalate (methods.map EmptyMethod.text)).length := by
    induction methods with
    | nil => exact Nat.zero_le _
    | cons first others ih =>
      have htext : 1 ≤ first.text.length := by simp [EmptyMethod.text, emptyTail]
      cases others with
      | nil => simpa using htext
      | cons next others =>
        simp only [List.map_cons, List.intercalate_cons_cons, List.length_append, List.length_cons] at ih ⊢
        omega
  rw [objectText]
  split
  · exact hitems.trans (by simp_all)
  · simp only [List.length_cons, List.length_append]
    omega

/-- A parser inside the first statement of a program. -/
def Parser.inStatement (parser : Parser) : Parser :=
  { parser with context := [.filling .program .body] }

theorem Parser.inStatement_lexer (parser : Parser) : parser.inStatement.lexer = parser.lexer := rfl

/-- The first statement of a program is in front of all of it. -/
theorem Parser.facing_inStatement {source : String} {text : List Char} (h : source.toList = text)
    (options : ParserOptions) :
    (started source options).inStatement.lexer.Facing .default false text :=
  h ▸ facing_started source options

theorem Parser.inStatement_budget (parser : Parser) : parser.inStatement.budget = parser.budget := rfl

namespace ParserM

variable {source : String} {options : ParserOptions} {room : Nat} {word : Token}

/-- A text of one statement is a program. -/
theorem ofSourceWith_of_oneStatement {node : Node} {afterOperand : Bool}
    (hroom : options.maxDepth = room + 1)
    (hw : (Parser.started source options).lexer.current = some word)
    (h : LeadsTo (statement (goal arrowAhead room)) (Parser.started source options).inStatement node
      afterOperand []) :
    Node.ofSourceWith options source = .ok (.program [node]) := by
  have hdepth : (Parser.started source options).context.length <
      (Parser.started source options).options.maxDepth := by
    change 0 < options.maxDepth
    omega
  obtain ⟨p₁, h₁, m₁, f₁⟩ : LeadsTo (statementAt (goal arrowAhead (room + 1)) .program .body)
      (Parser.started source options) node afterOperand [] :=
    Leads.within h (fun _ _ hf => hf) hdepth
  refine ofSourceWith_of_programBody ?_ f₁.current_nil.2
  have hbudget : (Parser.started source options).budget = 2 * source.toList.length + 2 + 1 + 1 := rfl
  rw [hroom, hbudget, run_programBody_of_statement hw h₁ m₁ rfl, run_programBody_nil f₁]

/-- So is one of a statement and a line feed. -/
theorem ofSourceWith_of_statement {node : Node} {afterOperand : Bool}
    (hroom : options.maxDepth = room + 1)
    (hw : (Parser.started source options).lexer.current = some word)
    (h : LeadsTo (statement (goal arrowAhead room)) (Parser.started source options).inStatement node
      afterOperand ['\n']) :
    Node.ofSourceWith options source = .ok (.program [node]) := by
  obtain ⟨p₁, h₁, m₁, f₁⟩ := h
  have hend : ∀ c ∈ ([] : List Char).head?, isSpace c = false := fun c hc => by cases hc
  exact ofSourceWith_of_oneStatement hroom hw ⟨p₁, h₁, m₁, f₁.skip (Or.inr rfl) hend⟩

/-- A failure of the first statement is one of the program. -/
theorem ofSourceWith_of_error {failure : Failure} {after : Parser}
    (hw : (Parser.started source options).lexer.current = some word)
    (h : statementAt (goal arrowAhead options.maxDepth) .program .body (Parser.started source options) =
      .error failure after) :
    Node.ofSourceWith options source = .error failure := by
  have hbudget : (Parser.started source options).budget = 2 * source.toList.length + 3 + 1 := rfl
  have hbody : programBody (goal arrowAhead options.maxDepth) (Parser.started source options).budget
      (Parser.started source options) = .error failure after := by
    simp only [hbudget, programBody, run_bind, run_current, hw, Option.isNone_some,
      Bool.false_eq_true, if_false, h]
  have hprogram : ParserM.program arrowAhead (Parser.ofText source options) = .error failure after := by
    have hb : programBody (goal arrowAhead (Parser.ofText source options).options.maxDepth)
        (Parser.ofText source options).budget
        { Parser.ofText source options with
          lexer := (Parser.ofText source options).lexer.next .default } = .error failure after := hbody
    simp only [ParserM.program, nextToken, run_bind, run_modifyLexer, run_get, hb]
  rw [Node.ofSourceWith, Parser.run, hprogram]

/-- A text whose first statement is not read is no program. -/
theorem ofSourceWith_ne_of_fails (hroom : options.maxDepth = room + 1)
    (hw : (Parser.started source options).lexer.current = some word)
    (h : Fails (statement (goal arrowAhead room)) (Parser.started source options).inStatement)
    (program : Node) :
    Node.ofSourceWith options source ≠ .ok program := by
  obtain ⟨failure, after, hx⟩ : Fails (statementAt (goal arrowAhead (room + 1)) .program .body)
      (Parser.started source options) := Fails.within h
  rw [← hroom] at hx
  rw [ofSourceWith_of_error hw hx]
  intro he
  cases he

end ParserM

open ParserM

/-- What is printed for a class is read as a class, of the members that its members are read as. -/
theorem ofSourceWith_toSource_class {name : Option String} {members : List ClassMember}
    (hn : IsSteadyClause name) (hw : ∀ member ∈ members, member.WellFormed) {options : ParserOptions}
    (hd : 3 ≤ options.maxDepth) :
    Node.ofSourceWith options (Node.program [classNode name members]).toSource =
      .ok (.program [.classDeclaration (name.map .identifier) none
        (.classBody (members.flatMap ClassMember.readAs))]) := by
  have hne : (classNode name members).lineText 0 ≠ [] := by
    rw [lineText_class]
    exact List.cons_ne_nil _ _
  have ht : (Node.program [classNode name members]).toSource.toList =
      classText 0 name members ++ ['\n'] := by
    rw [toList_toSource_of_ne_nil (by simpa using hne), programLines_cons, lineText_class]
    rfl
  have hf := Parser.facing_started (Node.program [classNode name members]).toSource options
  rw [ht] at hf
  obtain ⟨room, hroom⟩ : ∃ room, options.maxDepth = room + 1 + 1 := ⟨options.maxDepth - 2, by omega⟩
  have hbudget : (members.flatMap ClassMember.readAs).length <
      (Parser.started (Node.program [classNode name members]).toSource options).budget := by
    change _ < 2 * (Node.program [classNode name members]).toSource.toList.length + 4
    have hle := length_readAs_le 1 members
    have hbody : (membersText 1 members).length ≤ (classText 0 name members).length := by
      cases members with
      | nil => exact Nat.zero_le _
      | cons member members =>
        unfold classText
        simp only [classBody, List.isEmpty_cons, Bool.false_eq_true, if_false, Nat.zero_add,
          List.length_append, List.length_cons]
        omega
    rw [ht, List.length_append]
    omega
  rw [← Parser.inStatement_lexer] at hf
  rw [← Parser.inStatement_budget] at hbudget
  obtain ⟨⟨word, hc, hk⟩, hx⟩ := leadsTo_classDefinition hn hw hf hbudget room
    (by change 1 + 1 < options.maxDepth; omega)
  refine ofSourceWith_of_statement hroom hc (hx.of_eq ?_)
  simp only [statement, run_bind, run_token hc, hk]

section Objects

variable {target : String} {methods : List EmptyMethod} {options : ParserOptions}

/-- The parser of what is printed for the assignment of an object, inside the first statement. -/
def objectStart (target : String) (methods : List EmptyMethod) (options : ParserOptions) : Parser :=
  (Parser.started (Node.program [objectStatement target methods]).toSource options).inStatement

theorem toList_toSource_object (target : String) (methods : List EmptyMethod) :
    (Node.program [objectStatement target methods]).toSource.toList =
      assignmentText target methods ++ [';', '\n'] := by
  have hne : (objectStatement target methods).lineText 0 ≠ [] := by
    rw [lineText_object]
    exact List.append_ne_nil_of_right_ne_nil _ (List.cons_ne_nil _ _)
  rw [toList_toSource_of_ne_nil (by simpa using hne), programLines_cons, lineText_object]
  simp [programLines]

theorem facing_objectStart (target : String) (methods : List EmptyMethod) (options : ParserOptions) :
    (objectStart target methods options).lexer.Facing .default false
      (assignmentText target methods ++ [';', '\n']) := by
  have hf := Parser.facing_started (Node.program [objectStatement target methods]).toSource options
  rwa [toList_toSource_object, ← Parser.inStatement_lexer] at hf

theorem budget_objectStart (target : String) (methods : List EmptyMethod) (options : ParserOptions) :
    methods.length + 1 < (objectStart target methods options).budget := by
  change _ < 2 * (Node.program [objectStatement target methods]).toSource.toList.length + 4
  have hle := length_le_objectText methods
  rw [toList_toSource_object, assignmentText]
  simp only [List.length_append, List.length_cons]
  omega

/-- The statement starts with a name, so it is an expression. -/
theorem exists_word_objectStart (hn : IsSteadyName target.toList) (methods : List EmptyMethod)
    (options : ParserOptions) :
    ∃ word, (objectStart target methods options).lexer.current = some word ∧
      ∀ sub, statement sub (objectStart target methods options) =
        expressionStatement sub (objectStart target methods options) := by
  have hf : (objectStart target methods options).lexer.Facing .default false
      (target.toList ++ ' ' :: '=' :: ' ' :: (objectText methods ++ [';', '\n'])) := by
    simpa [assignmentText] using facing_objectStart target methods options
  have hs := hf.shows (begins_steadyName_of_head hn rfl rfl (by decide) (by decide) _) rfl
    (isUpdateSpelling_name hn.plain.isName)
  obtain ⟨word, hc, hk, -⟩ := hs.token
  refine ⟨word, hc, fun sub => ?_⟩
  simp only [statement, run_bind, run_token hc, hk]

/-- What is printed for the assignment of an object of methods, none of them fused, is read as that of
the methods with their keys as they are written. -/
theorem ofSourceWith_toSource_object (hn : IsSteadyName target.toList)
    (hw : ∀ inner ∈ methods, inner.key.WellFormed) (hf : ∀ inner ∈ methods, ¬inner.IsFused)
    (hd : 6 ≤ options.maxDepth) :
    Node.ofSourceWith options (Node.program [objectStatement target methods]).toSource =
      .ok (.program [objectStatement target (methods.map EmptyMethod.printed)]) := by
  obtain ⟨room, hroom⟩ : ∃ room, options.maxDepth = room + 3 + 1 := ⟨options.maxDepth - 4, by omega⟩
  obtain ⟨word, hc, hstatement⟩ := exists_word_objectStart hn methods options
  obtain ⟨p₁, h₁, m₁, f₁⟩ := leadsTo_objectAssignment hn hw hf
    (facing_objectStart target methods options) room (budget_objectStart target methods options)
    (by change 1 + 4 < options.maxDepth; omega)
  obtain ⟨p₂, h₂, m₂, f₂⟩ := leadsTo_accept (f₁.shows_mark .semicolon (by decide))
  refine ofSourceWith_of_statement hroom hc ⟨p₂, (hstatement _).trans ?_, m₁.trans m₂, f₂⟩
  have hplain : ∀ right : Node,
      (Node.assignment "=" (.identifier target) right).isStatement = false := fun _ => rfl
  simp only [expressionStatement, run_bind, h₁, hplain, Bool.false_eq_true, if_false, h₂, run_pure]
  rw [objectStatement, List.map_map]
  rfl

/-- What is printed for the assignment of an object with a fused method is no program. -/
theorem ofSourceWith_toSource_object_ne (hn : IsSteadyName target.toList)
    (hw : ∀ inner ∈ methods, inner.key.WellFormed) (hf : ∃ inner ∈ methods, inner.IsFused)
    (hd : 6 ≤ options.maxDepth) (program : Node) :
    Node.ofSourceWith options (Node.program [objectStatement target methods]).toSource ≠
      .ok program := by
  obtain ⟨room, hroom⟩ : ∃ room, options.maxDepth = room + 3 + 1 := ⟨options.maxDepth - 4, by omega⟩
  obtain ⟨word, hc, hstatement⟩ := exists_word_objectStart hn methods options
  have hoperand := fails_objectAssignment hn hw hf (facing_objectStart target methods options) room
    (budget_objectStart target methods options) (by change 1 + 4 < options.maxDepth; omega)
  have hfails : Fails (statement (goal arrowAhead (room + 3))) (objectStart target methods options) :=
    (hoperand.bind _).of_eq (hstatement _)
  rw [objectStart, Parser.inStatement_lexer] at hc
  rw [objectStart] at hfails
  exact ofSourceWith_ne_of_fails hroom hc hfails program

end Objects

/-- Members survive printing, whatever flags they have and whatever names, strings or computed names
their keys are, but for asynchronous methods that are called `function`. A class with such a method is
read with one member more, and an object with one is not read at all. -/
theorem Node.ofSourceWith_toSource_of_members (options : ParserOptions) :
    (∀ (name : Option String) (members : List ClassMember), IsSteadyClause name →
      (∀ member ∈ members, member.WellFormed) → 3 ≤ options.maxDepth →
      ((∃ again, Node.ofSourceWith options (Node.program [classNode name members]).toSource =
          .ok (.program [again]) ∧ again.same (classNode name members) = true) ↔
        ∀ member ∈ members, ¬member.IsFused)) ∧
    ∀ (target : String) (methods : List EmptyMethod), IsSteadyName target.toList →
      (∀ inner ∈ methods, inner.key.WellFormed) → 6 ≤ options.maxDepth →
      ((∃ again, Node.ofSourceWith options (Node.program [objectStatement target methods]).toSource =
          .ok (.program [again]) ∧ again.same (objectStatement target methods) = true) ↔
        ∀ inner ∈ methods, ¬inner.IsFused) := by
  constructor
  · intro name members hn hw hd
    have hread := ofSourceWith_toSource_class hn hw hd
    rw [← same_class_iff name members]
    constructor
    · rintro ⟨again, hagain, hsame⟩
      rw [hread] at hagain
      cases hagain
      exact hsame
    · exact fun hsame => ⟨_, hread, hsame⟩
  · intro target methods hn hw hd
    constructor
    · rintro ⟨again, hagain, -⟩ inner hm hfused
      exact ofSourceWith_toSource_object_ne hn hw ⟨inner, hm, hfused⟩ hd _ hagain
    · exact fun hf => ⟨_, ofSourceWith_toSource_object hn hw hf hd, same_objectStatement target methods⟩

theorem Node.ofSourceWith_toSource_modifierNames :
    (∃ again, Node.ofSourceWith {} (Node.program [classNode (some "a")
        [.method true ⟨true, true, .getter, .named "static"⟩, .field false (.string "=>" "") (some "b"),
          .method false ⟨false, false, .setter, .computed "c"⟩,
          .method false ⟨false, true, .method, .named "function"⟩]]).toSource = .ok (.program [again]) ∧
      again.same (classNode (some "a")
        [.method true ⟨true, true, .getter, .named "static"⟩, .field false (.string "=>" "") (some "b"),
          .method false ⟨false, false, .setter, .computed "c"⟩,
          .method false ⟨false, true, .method, .named "function"⟩]) = true) ∧
    ¬∃ again, Node.ofSourceWith {} (Node.program [objectStatement "x"
        [⟨true, false, .method, .named "async"⟩, ⟨true, false, .method, .named "function"⟩]]).toSource =
        .ok (.program [again]) ∧
      again.same (objectStatement "x"
        [⟨true, false, .method, .named "async"⟩, ⟨true, false, .method, .named "function"⟩]) = true := by
  have hsteady {name : String} (hp : IsPlainName name.toList)
      (hs : name.toList.any isSpace = false) : IsSteadyName name.toList :=
    hp.steady fun c hc => by simpa using List.any_eq_false.mp hs c hc
  constructor
  · refine ((Node.ofSourceWith_toSource_of_members {}).1 (some "a") _ ?_ ?_ (by decide)).mpr (by decide)
    · rintro _ ⟨⟩
      exact hsteady (by decide) (by decide)
    · intro member hm
      simp only [List.mem_cons, List.not_mem_nil, or_false] at hm
      rcases hm with rfl | rfl | rfl | rfl
      · change IsName "static".toList
        decide
      · refine ⟨⟨"\x22=>\x22".toList, _, rfl, rfl⟩, ?_⟩
        rintro _ ⟨⟩
        exact hsteady (by decide) (by decide)
      · exact hsteady (by decide) (by decide)
      · change IsName "function".toList
        decide
  · have hx : IsSteadyName "x".toList := hsteady (by decide) (by decide)
    refine fun hread => ?_
    have hnone := ((Node.ofSourceWith_toSource_of_members {}).2 "x" _ hx ?_ (by decide)).mp hread
    · exact hnone _ (List.mem_cons_of_mem _ List.mem_cons_self) (by decide)
    · intro inner hm
      simp only [List.mem_cons, List.not_mem_nil, or_false] at hm
      rcases hm with rfl | rfl
      · change IsName "async".toList
        decide
      · change IsName "function".toList
        decide

end ScriptTree
