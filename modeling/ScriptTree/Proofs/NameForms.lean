import ScriptTree.Proofs.ObjectReading

/-!
Lists of names in braces, in which each name stands alone or twice. What is read does not tell the two
apart, nor whether a comma stands behind the last name.
-/

namespace ScriptTree

namespace ParserM

variable {α β : Type} {parser : Parser} {afterOperand : Bool} {rest : List Char}

/-- What follows an item of a list: further items, and the end behind a comma or not. -/
def listTail (text : α → List Char) (comma : Bool) : List α → List Char
  | [] => if comma then [',', ' '] else [' ']
  | item :: items => ',' :: ' ' :: (text item ++ listTail text comma items)

/-- What stands between the braces around a list. -/
def listText (text : α → List Char) (comma : Bool) : List α → List Char
  | [] => []
  | item :: items => ' ' :: (text item ++ listTail text comma items)

theorem endsItem_listTail (text : α → List Char) (comma : Bool) (items : List α) (rest : List Char) :
    EndsItem (listTail text comma items ++ '\x7d' :: rest) := by
  cases items with
  | nil =>
    cases comma with
    | false => exact .close rest
    | true => exact .comma _
  | cons item items => exact .comma _

theorem length_le_listTail (text : α → List Char) (comma : Bool) (items : List α) :
    items.length ≤ (listTail text comma items).length := by
  induction items with
  | nil => exact Nat.zero_le _
  | cons item items ih =>
    simp only [listTail, List.length_cons, List.length_append]
    omega

theorem length_le_listText (text : α → List Char) (comma : Bool) (items : List α) :
    items.length ≤ (listText text comma items).length := by
  cases items with
  | nil => exact Nat.zero_le _
  | cons item items =>
    have htail := length_le_listTail text comma items
    simp only [listText, List.length_cons, List.length_append]
    omega

/-- Wherever a parser may have moved on to, something holds of a step before a text that something
follows, and the text does not look like the end of the list. -/
def AtItem (parser : Parser) (text : List Char) (holds : List Char → Parser → Prop) : Prop :=
  ∀ (between : Parser) (afterOperand : Bool) (rest : List Char), parser.Moved between →
    EndsItem rest → between.lexer.Facing .default afterOperand (text ++ rest) →
    isAt .closeBrace between = .ok false between ∧ holds rest between

/-- A text is read as an item of a list. -/
def ReadsItem (item : ParserM β) (parser : Parser) (text : List Char) (result : β) : Prop :=
  AtItem parser text fun rest between => ∃ afterOperand, LeadsTo item between result afterOperand rest

/-- A text is not read as an item of a list. -/
def FailsItem (item : ParserM β) (parser : Parser) (text : List Char) : Prop :=
  AtItem parser text fun _ between => Fails item between

theorem AtItem.moved {text : List Char} {holds : List Char → Parser → Prop} {between : Parser}
    (h : AtItem parser text holds) (hm : parser.Moved between) : AtItem between text holds :=
  fun after afterOperand rest hm' => h after afterOperand rest (hm.trans hm')

section Lists

variable {item : ParserM β} {text : α → List Char} {result : α → β} {comma : Bool} {rounds : Nat}

/-- Behind an item with others after it, the comma is stepped over, up to the next item. -/
theorem exists_nextItem {first next : α} {others : List α}
    (h : ReadsItem item parser (text first) (result first))
    (hf : parser.lexer.Facing .default afterOperand
      (text first ++ (listTail text comma (next :: others) ++ '\x7d' :: rest))) :
    isAt .closeBrace parser = .ok false parser ∧ ∃ between after,
      item parser = .ok (result first) between ∧ accept .comma between = .ok true after ∧
      parser.Moved after ∧ after.lexer.Facing .default false
        (text next ++ (listTail text comma others ++ '\x7d' :: rest)) := by
  obtain ⟨hat, _, p₁, h₁, m₁, f₁⟩ :=
    h parser afterOperand _ (.refl parser) (endsItem_listTail text comma (next :: others) rest) hf
  have hcomma : listTail text comma (next :: others) ++ '\x7d' :: rest =
      ',' :: ([' '] ++ (text next ++ (listTail text comma others ++ '\x7d' :: rest))) := by
    simp [listTail]
  rw [hcomma] at f₁
  obtain ⟨p₂, h₂, m₂, f₂⟩ := leadsTo_accept (f₁.shows_mark .comma (by decide))
  exact ⟨hat, p₁, p₂, h₁, h₂, m₁.trans m₂, f₂.pass (LexerMode.skips_space rfl)⟩

/-- From its first item on, a list is read up to the closing brace, by induction on the others. -/
theorem leadsTo_itemsFrom {first : α} {others : List α}
    (h : ∀ a ∈ first :: others, ReadsItem item parser (text a) (result a))
    (hf : parser.lexer.Facing .default afterOperand
      (text first ++ (listTail text comma others ++ '\x7d' :: rest)))
    (hr : others.length + 1 < rounds) :
    ∃ afterOperand', LeadsTo (commaList .closeBrace item rounds) parser
      ((first :: others).map result) afterOperand' ('\x7d' :: rest) := by
  induction others generalizing parser afterOperand first rounds with
  | nil =>
    obtain ⟨rounds, rfl⟩ : ∃ n, rounds = n + 1 + 1 := ⟨rounds - 2, by omega⟩
    obtain ⟨hat, afterOperand', p₁, h₁, m₁, f₁⟩ := h first List.mem_cons_self parser afterOperand _
      (.refl parser) (endsItem_listTail text comma [] rest) hf
    have hend : ∀ c ∈ ('\x7d' :: rest).head?, isSpace c = false := by
      rintro _ ⟨⟩
      rfl
    rw [commaList]
    cases comma with
    | false =>
      have f₁' := f₁.skip (Or.inl rfl) hend
      have hno := run_accept_of_shows_ne (f₁'.shows_brace .closeBrace (by decide)) .comma (by decide)
      refine ⟨afterOperand', p₁, ?_, m₁, f₁'⟩
      simp only [run_bind, hat, Bool.false_eq_true, if_false, h₁, hno, run_pure, List.map_cons,
        List.map_nil]
    | true =>
      -- behind the comma, the closing brace comes in place of another item
      obtain ⟨p₂, h₂, m₂, f₂⟩ := leadsTo_accept (f₁.shows_mark .comma (by decide))
      have f₂' := f₂.skip (Or.inl rfl) hend
      have hnil : commaList .closeBrace item (rounds + 1) p₂ = .ok [] p₂ :=
        run_commaList_nil (f₂'.shows_brace .closeBrace (by decide)) (Nat.succ_pos rounds)
      refine ⟨false, p₂, ?_, m₁.trans m₂, f₂'⟩
      simp only [run_bind, hat, Bool.false_eq_true, if_false, h₁, h₂, if_true, hnil, run_pure,
        List.map_cons, List.map_nil]
  | cons next others ih =>
    obtain ⟨rounds, rfl⟩ : ∃ n, rounds = n + 1 := ⟨rounds - 1, by omega⟩
    obtain ⟨hat, p₁, p₂, h₁, h₂, m₂, f₂⟩ := exists_nextItem (h first List.mem_cons_self) hf
    obtain ⟨afterOperand', p₃, h₃, m₃, f₃⟩ := ih
      (fun a ha => (h a (List.mem_cons_of_mem first ha)).moved m₂) f₂ (Nat.lt_of_succ_lt_succ hr)
    refine ⟨afterOperand', p₃, ?_, m₂.trans m₃, f₃⟩
    rw [commaList]
    simp only [run_bind, hat, Bool.false_eq_true, if_false, h₁, h₂, if_true, h₃, run_pure,
      List.map_cons]

theorem leadsTo_list {items : List α} (h : ∀ a ∈ items, ReadsItem item parser (text a) (result a))
    (hf : parser.lexer.Facing .default afterOperand (listText text comma items ++ '\x7d' :: rest))
    (hr : items.length < rounds) :
    ∃ afterOperand', LeadsTo (commaList .closeBrace item rounds) parser (items.map result)
      afterOperand' ('\x7d' :: rest) := by
  cases items with
  | nil =>
    exact ⟨afterOperand, parser, run_commaList_nil (Lexer.Facing.shows_brace .closeBrace hf (by decide))
      (Nat.zero_lt_of_lt hr), .refl parser, hf⟩
  | cons first others =>
    have hf' : parser.lexer.Facing .default afterOperand
        ([' '] ++ (text first ++ (listTail text comma others ++ '\x7d' :: rest))) := by
      simpa [listText] using hf
    exact leadsTo_itemsFrom h (hf'.pass (LexerMode.skips_space rfl)) hr

theorem fails_firstItem {first : α} {others : List α} (h : FailsItem item parser (text first))
    (hf : parser.lexer.Facing .default afterOperand
      (text first ++ (listTail text comma others ++ '\x7d' :: rest))) :
    Fails (commaList .closeBrace item rounds) parser := by
  cases rounds with
  | zero => exact ⟨_, _, rfl⟩
  | succ rounds =>
    obtain ⟨hat, failure, after, hx⟩ := h parser afterOperand _ (.refl parser)
      (endsItem_listTail text comma others rest) hf
    refine ⟨failure, after, ?_⟩
    rw [commaList]
    simp only [run_bind, hat, Bool.false_eq_true, if_false, hx]

/-- A list is not read if one of its items is not. All those before the first such item are. -/
theorem fails_itemsFrom {reads : α → Prop} {first : α} {others : List α}
    (h : ∀ a ∈ first :: others, reads a → ReadsItem item parser (text a) (result a))
    (hno : ∀ a ∈ first :: others, ¬reads a → FailsItem item parser (text a))
    (hex : ∃ a ∈ first :: others, ¬reads a)
    (hf : parser.lexer.Facing .default afterOperand
      (text first ++ (listTail text comma others ++ '\x7d' :: rest))) :
    Fails (commaList .closeBrace item rounds) parser := by
  induction others generalizing parser afterOperand first rounds with
  | nil =>
    obtain ⟨a, ha, hbad⟩ := hex
    obtain rfl := List.mem_singleton.mp ha
    exact fails_firstItem (hno a ha hbad) hf
  | cons next others ih =>
    by_cases hfirst : reads first
    · have hlater : ∃ a ∈ next :: others, ¬reads a :=
        ((List.exists_mem_cons_iff _ first _).mp hex).resolve_left (not_not_intro hfirst)
      obtain ⟨hat, p₁, p₂, h₁, h₂, m₂, f₂⟩ := exists_nextItem (h first List.mem_cons_self hfirst) hf
      cases rounds with
      | zero => exact ⟨_, _, rfl⟩
      | succ rounds =>
        obtain ⟨failure, after, h₃⟩ : Fails (commaList .closeBrace item rounds) p₂ := ih
          (fun a ha hr => (h a (List.mem_cons_of_mem first ha) hr).moved m₂)
          (fun a ha hr => (hno a (List.mem_cons_of_mem first ha) hr).moved m₂) hlater f₂
        refine ⟨failure, after, ?_⟩
        rw [commaList]
        simp only [run_bind, hat, Bool.false_eq_true, if_false, h₁, h₂, if_true, h₃]
    · exact fails_firstItem (hno first List.mem_cons_self hfirst) hf

theorem fails_list {reads : α → Prop} {items : List α}
    (h : ∀ a ∈ items, reads a → ReadsItem item parser (text a) (result a))
    (hno : ∀ a ∈ items, ¬reads a → FailsItem item parser (text a)) (hex : ∃ a ∈ items, ¬reads a)
    (hf : parser.lexer.Facing .default afterOperand (listText text comma items ++ '\x7d' :: rest)) :
    Fails (commaList .closeBrace item rounds) parser := by
  cases items with
  | nil =>
    obtain ⟨a, ha, -⟩ := hex
    cases ha
  | cons first others =>
    have hf' : parser.lexer.Facing .default afterOperand
        ([' '] ++ (text first ++ (listTail text comma others ++ '\x7d' :: rest))) := by
      simpa [listText] using hf
    exact fails_itemsFrom h hno hex (hf'.pass (LexerMode.skips_space rfl))

end Lists

end ParserM

/-- A name in a list, alone or twice. -/
structure NameForm where
  /-- The name. -/
  name : String
  /-- Whether it stands there twice. -/
  isTwice : Bool

namespace NameForm

/-- How a name in the list of an import or export is written. -/
def specifierText (form : NameForm) : List Char :=
  form.name.toList ++ if form.isTwice then " as ".toList ++ form.name.toList else []

end NameForm

namespace ParserM

variable {parser : Parser} {afterOperand : Bool} {rest : List Char} {names : List NameForm}
  {comma : Bool}

theorem readsItem_specifier (build : Node → Node → Node) {form : NameForm}
    (hn : IsName form.name.toList) :
    ReadsItem (namePair build) parser form.specifierText
      (build (.identifier form.name) (.identifier form.name)) := by
  intro between afterOperand rest _ hr hf
  obtain ⟨name, isTwice⟩ := form
  cases isTwice with
  | false =>
    rw [NameForm.specifierText, if_neg Bool.false_ne_true, List.append_nil] at hf
    obtain ⟨word, hw, hcan, -⟩ := hf.anyName hn hr.atBoundary
    exact ⟨run_isAt_of_ne hw (ne_of_canBeName hcan (by decide)), true, leadsTo_bareName build hf hn hr⟩
  | true =>
    have hf' : between.lexer.Facing .default afterOperand
        (name.toList ++ ' ' :: ("as".toList ++ ' ' :: (name.toList ++ rest))) := by
      simpa [NameForm.specifierText] using hf
    obtain ⟨word, hw, hcan, -⟩ := hf'.anyName hn rfl
    exact ⟨run_isAt_of_ne hw (ne_of_canBeName hcan (by decide)), true,
      leadsTo_renamedName build hf' hn hn hr⟩

/-- The nodes for the names of a list. -/
def specifiers (build : Node → Node → Node) (names : List NameForm) : List Node :=
  names.map fun form => build (.identifier form.name) (.identifier form.name)

theorem readsList_specifiers (build : Node → Node → Node) (hn : ∀ form ∈ names, IsName form.name.toList)
    (hr : names.length < parser.budget) :
    ReadsList (namePair build) (listText NameForm.specifierText comma names) (specifiers build names)
      parser := by
  intro between hb rest hf
  exact leadsTo_list (fun form hm => readsItem_specifier build (hn form hm)) hf (by rw [hb]; exact hr)

theorem run_accept_of_none (kind : TokenKind) (h : parser.lexer.current = none) :
    accept kind parser = .ok false parser := by
  simp only [accept, isAt, run_bind, run_current, h, Option.any_none, Bool.false_eq_true, if_false,
    run_pure]

theorem run_acceptText_of_none (kind : TokenKind) (text : String) (h : parser.lexer.current = none) :
    acceptText kind text parser = .ok false parser := by
  simp only [acceptText, isAtText, run_bind, run_current, h, Option.any_none, Bool.false_eq_true,
    if_false, run_pure]

/-- How an import of names is written. -/
def importingText (names : List NameForm) (comma : Bool) (source : List Char) : List Char :=
  "import".toList ++ ' ' :: ('\x7b' :: (listText NameForm.specifierText comma names ++ ['\x7d']) ++
    ' ' :: ("from".toList ++ ' ' :: source))

/-- Names in braces are all that an import binds. -/
theorem leadsTo_importSpecifierForms (hn : ∀ form ∈ names, IsName form.name.toList)
    (h : parser.lexer.Facing .default afterOperand
      ('\x7b' :: (listText NameForm.specifierText comma names ++ ['\x7d']) ++ rest))
    (hr : names.length < parser.budget) :
    isAt .stringLiteral parser = .ok false parser ∧ ∃ afterOperand',
      LeadsTo importSpecifiers parser (specifiers .importSpecifier names) afterOperand' rest := by
  have h' : parser.lexer.Facing .default afterOperand
      ('\x7b' :: (listText NameForm.specifierText comma names ++ '\x7d' :: rest)) := by
    simpa using h
  obtain ⟨⟨word, hw, hcan, hk⟩, p₁, h₁, m₁, f₁⟩ :=
    leadsTo_importBraces (readsList_specifiers .importSpecifier hn hr) h'
  refine ⟨run_isAt_of_ne hw hk, false, p₁, ?_, m₁, f₁⟩
  simp only [importSpecifiers, run_bind, run_current, hw, Option.any_some, hcan, Bool.false_eq_true,
    if_false, h₁]

/-- An import of names is read up to the end of the text. -/
theorem leadsTo_importing {quote : Char} {contents : List Char}
    (hn : ∀ form ∈ names, IsName form.name.toList) (hq : IsQuotable quote contents)
    (h : parser.lexer.Facing .default afterOperand
      (importingText names comma (quotedText quote contents)))
    (hr : names.length < parser.budget) (hd : parser.context.length < parser.options.maxDepth) :
    LeadsTo importDeclaration parser (.importDeclaration (specifiers .importSpecifier names)
      (.literal (.string (String.ofList contents)) (String.ofList (quotedText quote contents))))
      true [] := by
  have ht : importingText names comma (quotedText quote contents) =
      "import".toList ++ ' ' :: ('\x7b' :: (listText NameForm.specifierText comma names ++ ['\x7d']) ++
        ' ' :: ("from".toList ++ ' ' :: (quotedText quote contents ++ []))) := by
    rw [List.append_nil]
    rfl
  rw [ht] at h
  have hhead : ∀ rest, ∀ c ∈ ('\x7b' :: (listText NameForm.specifierText comma names ++ ['\x7d']) ++
      rest).head?, isSpace c = false := by
    rintro rest _ ⟨⟩
    rfl
  obtain ⟨p₁, m₁, f₁, h₁⟩ := leadsTo_importNames hq hhead
    (fun between hb rest hf => leadsTo_importSpecifierForms hn hf (by rw [hb]; exact hr)) h hd
  refine ⟨p₁, ?_, m₁, f₁⟩
  rw [h₁]
  simp only [run_bind, run_accept_of_none .semicolon f₁.current_nil.1, run_pure]

/-- How an export of names is written. -/
def exportingText (names : List NameForm) (comma : Bool) : List Char :=
  "export".toList ++ ' ' :: '\x7b' :: (listText NameForm.specifierText comma names ++ ['\x7d'])

/-- An export of names is read up to the end of the text. -/
theorem leadsTo_exporting {sub : Goal → ParserM Node} (hn : ∀ form ∈ names, IsName form.name.toList)
    (h : parser.lexer.Facing .default afterOperand (exportingText names comma))
    (hr : names.length < parser.budget) (hd : parser.context.length < parser.options.maxDepth) :
    LeadsTo (exportStatement sub) parser (.exportNamed (specifiers .exportSpecifier names) none)
      false [] := by
  obtain ⟨p₁, m₁, f₁, h₁⟩ := leadsTo_exported (readsList_specifiers .exportSpecifier hn hr) h hd
  have hnone := f₁.current_nil.1
  refine ⟨p₁, ?_, m₁, f₁⟩
  rw [h₁]
  simp only [run_bind, run_acceptText_of_none .importOperator "from" hnone, Bool.false_eq_true, if_false,
    run_pure, run_accept_of_none .semicolon hnone]

end ParserM

end ScriptTree
