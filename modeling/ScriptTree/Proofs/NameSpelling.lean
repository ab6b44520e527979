import ScriptTree.Proofs.NameLists

/-!
How the names of a list are written makes no difference to the tree: alone or twice, with a comma
behind the last one or without. The exceptions are names with white space in them that stand twice in
an object and are taken for the start of a function there.
-/

namespace ScriptTree

open ParserM

/-- A program that is one list of names. -/
inductive NameList where
  /-- An object that is assigned to a name. -/
  | object (target : String) (members : List NameMember)
  /-- An object to which a name is assigned, all in parentheses. -/
  | pattern (members : List NameMember) (value : String)
  /-- The names that an import binds. -/
  | imported (names : List NameForm) (quote : Char) (contents : List Char)
  /-- The names of an export. -/
  | exported (names : List NameForm)

/-- The name alone. -/
def NameForm.once (form : NameForm) : NameForm := { form with isTwice := false }

/-- The member with its name alone. -/
def NameMember.once (member : NameMember) : NameMember := { member with form := member.form.once }

namespace NameList

/-- How a list is written, with a comma behind the last name or without. -/
def text (comma : Bool) : NameList → List Char
  | object target members => target.toList ++ ' ' :: '=' :: ' ' :: namesText members comma
  | pattern members value =>
    '(' :: (namesText members comma ++ ' ' :: '=' :: ' ' :: (value.toList ++ [')']))
  | imported names quote contents => importingText names comma (quotedText quote contents)
  | exported names => exportingText names comma

/-- The tree of a list. -/
def node : NameList → Node
  | object target members => .expressionStatement
      (.assignment "=" (.identifier target) (.object .expression (members.map NameMember.node)))
  | pattern members value => .expressionStatement
      (.assignment "=" (.object .expression (members.map NameMember.node)) (.identifier value))
  | imported names quote contents => .importDeclaration (specifiers .importSpecifier names)
      (.literal (.string (String.ofList contents)) (String.ofList (quotedText quote contents)))
  | exported names => .exportNamed (specifiers .exportSpecifier names) none

/-- The members of an object. -/
def members : NameList → List NameMember
  | object _ members => members
  | pattern members _ => members
  | imported .. => []
  | exported _ => []

/-- The names of an import or export. -/
def names : NameList → List NameForm
  | object .. => []
  | pattern .. => []
  | imported names _ _ => names
  | exported names => names

/-- In an object all names are plain ones, elsewhere they may be keywords. -/
def WellFormed : NameList → Prop
  | object target members => IsSteadyName target.toList ∧ ∀ member ∈ members, member.IsPlain
  | pattern members value => IsSteadyName value.toList ∧ ∀ member ∈ members, member.IsPlain
  | imported names quote contents => (∀ form ∈ names, IsName form.name.toList) ∧ IsQuotable quote contents
  | exported names => ∀ form ∈ names, IsName form.name.toList

/-- Each name that stands twice in an object is read as such also the second time. -/
def IsSteady (list : NameList) : Prop := ∀ member ∈ list.members, member.IsSteady

/-- The same list with each name alone. -/
def once : NameList → NameList
  | object target members => .object target (members.map NameMember.once)
  | pattern members value => .pattern (members.map NameMember.once) value
  | imported names quote contents => .imported (names.map NameForm.once) quote contents
  | exported names => .exported (names.map NameForm.once)

section Reading

variable {list : NameList} {comma : Bool} {options : ParserOptions} {room : Nat}

/-- The parser of a list, inside the first statement. -/
def start (list : NameList) (comma : Bool) (options : ParserOptions) : Parser :=
  (Parser.started (String.ofList (list.text comma)) options).inStatement

theorem facing_start (list : NameList) (comma : Bool) (options : ParserOptions) :
    (list.start comma options).lexer.Facing .default false (list.text comma) := by
  have hf := Parser.facing_started (String.ofList (list.text comma)) options
  rwa [String.toList_ofList] at hf

theorem length_le_text (list : NameList) (comma : Bool) :
    list.members.length ≤ (list.text comma).length ∧ list.names.length ≤ (list.text comma).length := by
  cases list with
  | object target members =>
    have hle := length_le_listText NameMember.text comma members
    simp only [NameList.members, names, text, namesText, List.length_append, List.length_cons,
      List.length_nil]
    omega
  | pattern members value =>
    have hle := length_le_listText NameMember.text comma members
    simp only [NameList.members, names, text, namesText, List.length_append, List.length_cons,
      List.length_nil]
    omega
  | imported names quote contents =>
    have hle := length_le_listText NameForm.specifierText comma names
    unfold text importingText
    simp only [members, NameList.names, List.length_append, List.length_cons, List.length_nil]
    omega
  | exported names =>
    have hle := length_le_listText NameForm.specifierText comma names
    unfold text exportingText
    simp only [members, NameList.names, List.length_append, List.length_cons, List.length_nil]
    omega

/-- There are enough rounds for all of a list. -/
theorem lt_budget_start (list : NameList) (comma : Bool) (options : ParserOptions) :
    list.members.length + 1 < (list.start comma options).budget ∧
      list.names.length < (list.start comma options).budget := by
  have hbudget : (list.start comma options).budget =
      2 * (String.ofList (list.text comma)).toList.length + 4 := rfl
  have hle := list.length_le_text comma
  rw [hbudget, String.toList_ofList]
  omega

theorem not_mem_namesText {members : List NameMember} (h : ∀ member ∈ members, member.IsPlain)
    (comma : Bool) : '>' ∉ namesText members comma := by
  have htext : ∀ member ∈ members, '>' ∉ member.text := by
    intro member hm
    have hname := (h member hm).name.isName.not_mem
    have hfallback : '>' ∉ member.fallbackText := by
      unfold NameMember.fallbackText
      split
      · next fallback he => simp [((h member hm).fallback fallback he).plain.isName.not_mem]
      · exact List.not_mem_nil
    unfold NameMember.text NameMember.tail
    split <;> simp [hname, hfallback]
  have htail : '>' ∉ listTail NameMember.text comma members := by
    clear h
    induction members with
    | nil => cases comma <;> simp [listTail]
    | cons member members ih =>
      have hrest := ih fun other hm => htext other (List.mem_cons_of_mem _ hm)
      simp [listTail, htext member List.mem_cons_self, hrest]
  cases members with
  | nil => simp [namesText, listText]
  | cons member members => simpa [namesText, listText, listTail] using htail

/-- In front of an object in parentheses, no arrow follows. -/
theorem on_openParen {members : List NameMember} {value : String}
    (hw : (pattern members value).WellFormed) (comma : Bool) (options : ParserOptions) :
    ((pattern members value).start comma options).On .openParen none ['(']
      (namesText members comma ++ ' ' :: '=' :: ' ' :: (value.toList ++ [')'])) := by
  have harrows : ArrowFree (String.ofList ((pattern members value).text comma)).toList := by
    rw [String.toList_ofList]
    apply arrowFree_of_not_mem_greater
    simp [text, not_mem_namesText hw.2 comma, hw.1.plain.isName.not_mem]
  have hb := (Parser.before_started options harrows).enter (.filling .program .body)
  rw [String.toList_ofList] at hb
  exact hb.on (begins_mark (by decide) _ _) rfl rfl

/-- The kind of the token that a list starts with. -/
def startKind : NameList → TokenKind
  | object .. => .identifierName
  | pattern .. => .openParen
  | imported .. => .importKeyword
  | exported _ => .exportKeyword

theorem exists_word (hw : list.WellFormed) (comma : Bool) (options : ParserOptions) :
    ∃ word, (list.start comma options).lexer.current = some word ∧ word.kind = list.startKind := by
  have hf := list.facing_start comma options
  have hword {kind : TokenKind} {value behind : List Char} {closes : Bool}
      (hs : (list.start comma options).lexer.Shows kind none value closes behind) :
      ∃ word, (list.start comma options).lexer.current = some word ∧ word.kind = kind := by
    obtain ⟨word, hw, hk, -⟩ := hs.token
    exact ⟨word, hw, hk⟩
  cases list with
  | object target members =>
    have hsteady : IsSteadyName target.toList := hw.1
    exact hword (hf.shows (begins_steadyName_of_head hsteady rfl rfl (by decide) (by decide) _) rfl
      (isUpdateSpelling_name hsteady.plain.isName))
  | pattern members value => exact hword (hf.shows_mark .openParen (by decide))
  | imported names quote contents => exact hword (hf.shows (begins_import false _) rfl rfl)
  | exported names => exact hword (hf.shows (begins_export false _) rfl rfl)

/-- A list is a statement, if its names are read as such. -/
theorem leadsTo_statement (hw : list.WellFormed) (hs : list.IsSteady)
    (hroom : options.maxDepth = room + 4 + 1) (hd : 3 ≤ room) :
    ∃ afterOperand, LeadsTo (statement (goal arrowAhead (room + 4))) (list.start comma options)
      list.node afterOperand [] := by
  have hf := list.facing_start comma options
  obtain ⟨hmembers, hnames⟩ := list.lt_budget_start comma options
  obtain ⟨word, hword, hk⟩ := exists_word hw comma options
  have hdepth : (list.start comma options).context.length + 6 <
      (list.start comma options).options.maxDepth := by
    change 1 + 6 < options.maxDepth
    omega
  cases list with
  | object target members =>
    have hx := leadsTo_assignedObject hw.1 hw.2 hs hf room hmembers hdepth
    exact ⟨false, leadsTo_lastExpression hword (Or.inl hk) rfl hx⟩
  | pattern members value =>
    have hx := leadsTo_assignedPattern hw.1 hw.2 hs (on_openParen hw comma options) room hmembers
      (Nat.lt_of_succ_lt hdepth)
    exact ⟨true, leadsTo_lastExpression hword (Or.inr hk) rfl hx⟩
  | imported names quote contents =>
    have hx := leadsTo_importing hw.1 hw.2 hf hnames (by omega)
    exact ⟨true, hx.of_eq (by simp only [statement, run_bind, run_token hword, hk, startKind])⟩
  | exported names =>
    have hx : LeadsTo (exportStatement (goal arrowAhead (room + 4))) _ (exported names).node false [] :=
      leadsTo_exporting hw hf hnames (by omega)
    exact ⟨false, hx.of_eq (by simp only [statement, run_bind, run_token hword, hk, startKind])⟩

/-- If one of its names is taken for the start of a function, a list is no statement. -/
theorem fails_statement (hw : list.WellFormed) (hs : ¬list.IsSteady)
    (hroom : options.maxDepth = room + 4 + 1) (hd : 3 ≤ room) :
    Fails (statement (goal arrowAhead (room + 4))) (list.start comma options) := by
  have hf := list.facing_start comma options
  obtain ⟨hmembers, -⟩ := list.lt_budget_start comma options
  have hbudget : 1 < (list.start comma options).budget := Nat.lt_of_le_of_lt (by omega) hmembers
  obtain ⟨word, hword, hk⟩ := exists_word hw comma options
  obtain ⟨member, hm, hbad⟩ : ∃ member ∈ list.members, ¬member.IsSteady := by
    simpa [IsSteady] using hs
  have hdepth : (list.start comma options).context.length + 6 <
      (list.start comma options).options.maxDepth := by
    change 1 + 6 < options.maxDepth
    omega
  cases list with
  | object target members =>
    have hx := fails_assignedObject hw.1 hw.2 ⟨member, hm, hbad⟩ hf room hbudget hdepth
    exact (hx.bind _).of_eq (run_statement_expression hword (Or.inl hk))
  | pattern members value =>
    have hx := fails_assignedPattern hw.2 ⟨member, hm, hbad⟩ (on_openParen hw comma options) room
      hbudget (Nat.lt_of_succ_lt hdepth)
    exact (hx.bind _).of_eq (run_statement_expression hword (Or.inr hk))
  | imported => cases hm
  | exported => cases hm

theorem ofSourceWith_text (hw : list.WellFormed) (hs : list.IsSteady) (hd : 8 ≤ options.maxDepth) :
    Node.ofSourceWith options (String.ofList (list.text comma)) = .ok (.program [list.node]) := by
  obtain ⟨room, hroom⟩ : ∃ room, options.maxDepth = room + 4 + 1 := ⟨options.maxDepth - 5, by omega⟩
  obtain ⟨word, hword, -⟩ := exists_word hw comma options
  obtain ⟨afterOperand, hx⟩ := leadsTo_statement hw hs hroom (by omega)
  exact ofSourceWith_of_oneStatement hroom hword hx

theorem ofSourceWith_text_ne (hw : list.WellFormed) (hs : ¬list.IsSteady) (hd : 8 ≤ options.maxDepth)
    (program : Node) : Node.ofSourceWith options (String.ofList (list.text comma)) ≠ .ok program := by
  obtain ⟨room, hroom⟩ : ∃ room, options.maxDepth = room + 4 + 1 := ⟨options.maxDepth - 5, by omega⟩
  obtain ⟨word, hword, -⟩ := exists_word hw comma options
  exact ofSourceWith_ne_of_fails hroom hword (fails_statement hw hs hroom (by omega)) program

end Reading

end NameList

namespace NameMember

variable {member other : NameMember}

theorem same_value (member : NameMember) : member.value.same member.value = true := by
  obtain ⟨⟨name, isTwice⟩, fallback⟩ := member
  have hname := ModuleDeclaration.same_identifier name
  cases fallback with
  | none => exact hname
  | some fallback =>
    have hassignment : (Node.assignment "=" (.identifier name) (.identifier fallback)).same
        (.assignment "=" (.identifier name) (.identifier fallback)) =
        (true && (Node.identifier name).same (.identifier name) &&
          (Node.identifier fallback).same (.identifier fallback)) := rfl
    rw [hname, ModuleDeclaration.same_identifier fallback] at hassignment
    exact hassignment

/-- Whether the name stands there twice is the only difference between the nodes, and it does not
count. -/
theorem same_node (h : member.once = other.once) : member.node.same other.node = true := by
  obtain ⟨⟨name, isTwice⟩, fallback⟩ := member
  obtain ⟨⟨name', isTwice'⟩, fallback'⟩ := other
  obtain ⟨rfl, rfl⟩ : name = name' ∧ fallback = fallback' := by
    simpa [once, NameForm.once] using h
  have hname := ModuleDeclaration.same_identifier name
  have hvalue := same_value ⟨⟨name, isTwice⟩, fallback⟩
  have hnode : (node ⟨⟨name, isTwice⟩, fallback⟩).same (node ⟨⟨name, isTwice'⟩, fallback⟩) =
      ((Node.identifier name).same (.identifier name) &&
        (value ⟨⟨name, isTwice⟩, fallback⟩).same (value ⟨⟨name, isTwice⟩, fallback⟩) &&
        true && true && true) := rfl
  rw [hnode, hname, hvalue]
  rfl

theorem same_nodes {members others : List NameMember} (h : members.map once = others.map once) :
    Node.sameList (members.map node) (others.map node) = true := by
  induction members generalizing others with
  | nil =>
    obtain rfl := List.map_eq_nil_iff.mp h.symm
    rfl
  | cons member members ih =>
    obtain ⟨other, others, rfl, hfirst, hrest⟩ := List.map_eq_cons_iff.mp h.symm
    exact Bool.and_eq_true_iff.mpr ⟨same_node hfirst.symm, ih hrest.symm⟩

end NameMember

theorem specifiers_eq_of_once {build : Node → Node → Node} {names others : List NameForm}
    (h : names.map NameForm.once = others.map NameForm.once) :
    specifiers build names = specifiers build others := by
  have honce (forms : List NameForm) :
      specifiers build (forms.map NameForm.once) = specifiers build forms := by
    rw [specifiers, List.map_map]
    rfl
  rw [← honce names, h, honce]

theorem same_specifiers {build : Node → Node → Node} (names : List NameForm)
    (h : ∀ name, (build (.identifier name) (.identifier name)).same
      (build (.identifier name) (.identifier name)) = true) :
    Node.sameList (specifiers build names) (specifiers build names) = true := by
  refine Node.sameList_self fun node hm => ?_
  obtain ⟨form, -, rfl⟩ := List.mem_map.mp hm
  exact h form.name

namespace NameList

variable {list other : NameList}

/-- Lists that differ only in how the names are written have the same tree. -/
theorem same_node (h : list.once = other.once) : list.node.same other.node = true := by
  have hboth (name : String) : ((Node.identifier name).same (.identifier name) &&
      (Node.identifier name).same (.identifier name)) = true := by
    rw [ModuleDeclaration.same_identifier]
    rfl
  cases list <;> cases other
  case object.object target members target' members' =>
    obtain ⟨rfl, hm⟩ := NameList.object.inj h
    have hnode : (object target members).node.same (object target members').node =
        (true && (Node.identifier target).same (.identifier target) &&
          (true && Node.sameList (members.map NameMember.node) (members'.map NameMember.node))) := rfl
    rw [hnode, ModuleDeclaration.same_identifier, NameMember.same_nodes hm]
    rfl
  case pattern.pattern members value members' value' =>
    obtain ⟨hm, rfl⟩ := NameList.pattern.inj h
    have hnode : (pattern members value).node.same (pattern members' value).node =
        (true && (true && Node.sameList (members.map NameMember.node) (members'.map NameMember.node)) &&
          (Node.identifier value).same (.identifier value)) := rfl
    rw [hnode, ModuleDeclaration.same_identifier, NameMember.same_nodes hm]
    rfl
  case imported.imported names quote contents names' quote' contents' =>
    obtain ⟨hm, rfl, rfl⟩ := NameList.imported.inj h
    rw [node, node, ← specifiers_eq_of_once hm]
    exact Bool.and_eq_true_iff.mpr ⟨same_specifiers names hboth, beq_self_eq_true _⟩
  case exported.exported names names' =>
    have hm := NameList.exported.inj h
    rw [node, node, ← specifiers_eq_of_once hm]
    exact Bool.and_eq_true_iff.mpr ⟨same_specifiers names hboth, rfl⟩
  all_goals cases h

/-- Two lists of the same names are read as the same tree, however each of the names is written and
whether a comma stands behind the last one, if and only if each name that stands twice in an object
is read as a name also the second time. -/
theorem reads_alike_iff (comma comma' : Bool) (options : ParserOptions) (hw : list.WellFormed)
    (hw' : other.WellFormed) (h : list.once = other.once) (hd : 8 ≤ options.maxDepth) :
    (∃ program again, Node.ofSourceWith options (String.ofList (list.text comma)) = .ok program ∧
      Node.ofSourceWith options (String.ofList (other.text comma')) = .ok again ∧
      program.same again = true) ↔ list.IsSteady ∧ other.IsSteady := by
  constructor
  · rintro ⟨program, again, hprogram, hagain, -⟩
    constructor
    · by_contra hs
      exact ofSourceWith_text_ne hw hs hd program hprogram
    · by_contra hs
      exact ofSourceWith_text_ne hw' hs hd again hagain
  · rintro ⟨hs, hs'⟩
    refine ⟨_, _, ofSourceWith_text hw hs hd, ofSourceWith_text hw' hs' hd, ?_⟩
    exact Bool.and_eq_true_iff.mpr ⟨same_node h, rfl⟩

theorem reads_alike_iff_joined :
    (∃ program again, Node.ofSource "(\x7b a = b, c \x7d = d)" = .ok program ∧
      Node.ofSource "(\x7b a: a = b, c: c, \x7d = d)" = .ok again ∧ program.same again = true) ∧
    ¬∃ program again, Node.ofSource "x = \x7b async\u200cfunction \x7d" = .ok program ∧
      Node.ofSource "x = \x7b async\u200cfunction: async\u200cfunction \x7d" = .ok again ∧
      program.same again = true := by
  have hsteady {name : String} (hp : IsPlainName name.toList)
      (hs : name.toList.any isSpace = false) : IsSteadyName name.toList :=
    hp.steady fun c hc => by simpa using List.any_eq_false.mp hs c hc
  constructor
  · have ha : IsSteadyName "a".toList := hsteady (by decide) (by decide)
    have hb : IsSteadyName "b".toList := hsteady (by decide) (by decide)
    have hc : IsSteadyName "c".toList := hsteady (by decide) (by decide)
    let list (isTwice : Bool) : NameList :=
      .pattern [⟨⟨"a", isTwice⟩, some "b"⟩, ⟨⟨"c", isTwice⟩, none⟩] "d"
    have hwell (isTwice : Bool) : (list isTwice).WellFormed := by
      refine ⟨hsteady (by decide) (by decide), List.forall_mem_cons.mpr
        ⟨⟨ha.plain, ?_⟩, List.forall_mem_singleton.mpr ⟨hc.plain, ?_⟩⟩⟩
      · rintro _ ⟨⟩
        exact hb
      · rintro _ ⟨⟩
    have hreads (isTwice : Bool) : (list isTwice).IsSteady :=
      List.forall_mem_cons.mpr ⟨fun _ => ha, List.forall_mem_singleton.mpr fun _ => hc⟩
    exact (reads_alike_iff false true {} (hwell false) (hwell true) rfl (by decide)).mpr
      ⟨hreads false, hreads true⟩
  · let list (isTwice : Bool) : NameList := .object "x" [⟨⟨"async\u200cfunction", isTwice⟩, none⟩]
    have hplain : IsPlainName "async\u200cfunction".toList := by decide +kernel
    have hgap : IsGap ['\u200c'] := ⟨List.cons_ne_nil _ _, List.forall_mem_singleton.mpr rfl⟩
    have hmisread : Misread [] "async\u200cfunction".toList := .async hgap
    have hwell (isTwice : Bool) : (list isTwice).WellFormed := by
      refine ⟨hsteady (by decide) (by decide), List.forall_mem_singleton.mpr ⟨hplain, ?_⟩⟩
      rintro _ ⟨⟩
    intro hreads
    obtain ⟨-, hread⟩ :=
      (reads_alike_iff false false {} (hwell false) (hwell true) rfl (by decide)).mp hreads
    exact (hread _ (List.mem_singleton.mpr rfl) rfl).whole hmisread

end NameList

end ScriptTree
