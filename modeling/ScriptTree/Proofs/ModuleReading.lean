import ScriptTree.Proofs.NameReading
import ScriptTree.Proofs.SettledLiterals
import ScriptTree.Proofs.StatementTokens

/-!
Imports and exports, as they are read: lists of names in braces, and the string behind.
-/

namespace ScriptTree

namespace ParserM

variable {parser : Parser} {afterOperand : Bool} {rest : List Char}

/-- What follows an item in braces: a comma, or the closing brace behind a space. -/
inductive EndsItem : List Char → Prop
  | comma (rest : List Char) : EndsItem (',' :: rest)
  | close (rest : List Char) : EndsItem (' ' :: '\x7d' :: rest)

theorem EndsItem.atBoundary {rest : List Char} (h : EndsItem rest) : atBoundary rest = true := by
  cases h <;> rfl

theorem EndsItem.shows {lexer : Lexer} (h : EndsItem rest)
    (hf : lexer.Facing .default afterOperand rest) :
    ∃ kind value behind, lexer.Shows kind none value false behind ∧ kind ∈ [.comma, .closeBrace] := by
  cases h with
  | comma rest => exact ⟨.comma, _, rest, hf.shows_mark .comma (by decide), by decide⟩
  | close rest =>
    have hf' := hf.skip (Or.inl rfl) (by rintro _ ⟨⟩; rfl)
    exact ⟨.closeBrace, _, rest, hf'.shows_brace .closeBrace (by decide), by decide⟩

/-- Two names, of which the second is left out if it is the same. -/
def namePair (build : Node → Node → Node) : ParserM Node := do
  let first ← ParserM.name
  let other ← renamed first
  pure (build first other)

/-- How two names are written. -/
def pairText (pair : String × String) : List Char :=
  if pair.1 = pair.2 then pair.1.toList else pair.1.toList ++ " as ".toList ++ pair.2.toList

/-- Both are names. -/
def NamePair (pair : String × String) : Prop := IsName pair.1.toList ∧ IsName pair.2.toList

/-- A name that stands alone is both of them. -/
theorem leadsTo_bareName (build : Node → Node → Node) {name : String}
    (h : parser.lexer.Facing .default afterOperand (name.toList ++ rest)) (hn : IsName name.toList)
    (hr : EndsItem rest) :
    LeadsTo (namePair build) parser (build (.identifier name) (.identifier name)) true rest := by
  refine (leadsTo_name h hn hr.atBoundary).bind fun p₁ _ f₁ => ?_
  obtain ⟨kind, value, behind, hs, hk⟩ := hr.shows f₁
  have hne : kind ≠ .importOperator := by
    rintro rfl
    exact absurd hk (by decide)
  have hno := run_acceptText_of_ne hs .importOperator "as" hne
  refine ⟨p₁, ?_, .refl p₁, f₁⟩
  simp only [renamed, run_bind, hno, Bool.false_eq_true, if_false, run_pure]

/-- Behind `as` stands the other name, which may be the same again. -/
theorem leadsTo_renamedName (build : Node → Node → Node) {name other : String}
    (h : parser.lexer.Facing .default afterOperand
      (name.toList ++ ' ' :: ("as".toList ++ ' ' :: (other.toList ++ rest))))
    (hn : IsName name.toList) (ho : IsName other.toList) (hr : EndsItem rest) :
    LeadsTo (namePair build) parser (build (.identifier name) (.identifier other)) true rest := by
  refine (leadsTo_name h hn rfl).bind fun p₁ _ f₁ => ?_
  have hs : p₁.lexer.Shows .importOperator none "as".toList false _ :=
    (f₁.skip (Or.inl rfl) (by rintro _ ⟨⟩; rfl)).shows (begins_importWord (by decide) _ _) rfl rfl
  obtain ⟨p₂, h₂, m₂, f₂⟩ := leadsTo_acceptText hs
  obtain ⟨p₃, h₃, m₃, f₃⟩ := leadsTo_name
    (f₂.skip (Or.inl rfl) (ho.head_not_space rest)) ho hr.atBoundary
  refine ⟨p₃, ?_, m₂.trans m₃, f₃⟩
  simp only [renamed, run_bind, h₂, if_true, h₃, run_pure]

theorem leadsTo_namePair (build : Node → Node → Node) {pair : String × String}
    (h : parser.lexer.Facing .default afterOperand (pairText pair ++ rest)) (hn : NamePair pair)
    (hr : EndsItem rest) :
    LeadsTo (namePair build) parser (build (.identifier pair.1) (.identifier pair.2)) true rest := by
  obtain ⟨first, other⟩ := pair
  unfold pairText at h
  dsimp only at h
  split at h
  · rename_i he
    subst he
    exact leadsTo_bareName build h hn.1 hr
  · have he : first.toList ++ " as ".toList ++ other.toList ++ rest =
        first.toList ++ ' ' :: ("as".toList ++ ' ' :: (other.toList ++ rest)) := by simp
    rw [he] at h
    exact leadsTo_renamedName build h hn.1 hn.2 hr

theorem run_isAt_of_ne {word : Token} {other : TokenKind} (hw : parser.lexer.current = some word)
    (ho : word.kind ≠ other) : isAt other parser = .ok false parser := by
  simp only [isAt, run_bind, run_current, hw, Option.any_some, beq_eq_false_iff_ne.mpr ho, run_pure]

/-- A word that can be a name does not end a list, and is no string. -/
theorem ne_of_canBeName {word : Token} {other : TokenKind} (h : canBeName word = true)
    (ho : other ∈ [.closeBrace, .stringLiteral]) : word.kind ≠ other := by
  rintro rfl
  simp only [List.mem_cons, List.not_mem_nil, or_false] at ho
  rcases ho with ho | ho <;>
  · rw [canBeName, ho] at h
    cases h

theorem run_isAt_of_pair {pair : String × String}
    (h : parser.lexer.Facing .default afterOperand (pairText pair ++ rest)) (hn : NamePair pair)
    (hr : EndsItem rest) : isAt .closeBrace parser = .ok false parser := by
  obtain ⟨word, hw, hcan⟩ : ∃ word, parser.lexer.current = some word ∧ canBeName word = true := by
    unfold pairText at h
    split at h
    · obtain ⟨word, hw, hcan, -⟩ := h.anyName hn.1 hr.atBoundary
      exact ⟨word, hw, hcan⟩
    · rw [List.append_assoc, List.append_assoc] at h
      obtain ⟨word, hw, hcan, -⟩ := h.anyName hn.1 rfl
      exact ⟨word, hw, hcan⟩
  exact run_isAt_of_ne hw (ne_of_canBeName hcan (by decide))

/-- How a list of pairs of names is written. -/
def pairsText (pairs : List (String × String)) : List Char :=
  ", ".toList.intercalate (pairs.map pairText)

theorem pairsText_cons_cons (pair next : String × String) (pairs : List (String × String)) :
    pairsText (pair :: next :: pairs) = pairText pair ++ ',' :: ' ' :: pairsText (next :: pairs) := by
  simp [pairsText]

/-- Items with commas between them, by induction on those that a comma follows: each item is read where
it stands, and none is taken for the end of the list. -/
theorem leads_items {α β : Type} {close : TokenKind} {item : ParserM β} {text : α → List Char}
    {result : α → β} {earlier : List α} {lastText : List Char} {last : β} {holds : Parser → Prop}
    {rounds : Nat}
    (hitem : ∀ a ∈ earlier, ∀ (between : Parser) (afterOperand : Bool) (rest : List Char),
      parser.Moved between → between.lexer.Facing .default afterOperand (text a ++ ',' :: rest) →
      isAt close between = .ok false between ∧
        ∃ afterOperand', LeadsTo item between (result a) afterOperand' (',' :: rest))
    (hlast : ∀ (between : Parser) (afterOperand : Bool), parser.Moved between →
      between.lexer.Facing .default afterOperand lastText →
      isAt close between = .ok false between ∧
        Leads item between last fun after => holds after ∧
          ∀ word ∈ after.lexer.current, word.kind ≠ .comma)
    (h : parser.lexer.Facing .default afterOperand
      ((earlier.flatMap fun a => text a ++ ", ".toList) ++ lastText))
    (hr : earlier.length < rounds) :
    Leads (commaList close item rounds) parser (earlier.map result ++ [last]) holds := by
  induction earlier generalizing parser afterOperand rounds with
  | nil =>
    obtain ⟨rounds, rfl⟩ := Nat.exists_eq_succ_of_ne_zero (Nat.ne_zero_of_lt hr)
    obtain ⟨hat, p₁, h₁, m₁, hh, hne⟩ := hlast parser afterOperand (.refl parser) h
    have hcomma : (p₁.lexer.current.any fun word => word.kind == .comma) = false := by
      cases hw : p₁.lexer.current with
      | none => rfl
      | some word => exact beq_eq_false_iff_ne.mpr (hne word hw)
    have hno : accept .comma p₁ = .ok false p₁ := by
      simp only [accept, isAt, run_bind, run_current, hcomma, Bool.false_eq_true, if_false, run_pure]
    refine ⟨p₁, ?_, m₁, hh⟩
    simp only [commaList, run_bind, hat, Bool.false_eq_true, if_false, h₁, hno, run_pure,
      List.map_nil, List.nil_append]
  | cons first earlier ih =>
    obtain ⟨rounds, rfl⟩ := Nat.exists_eq_succ_of_ne_zero (Nat.ne_zero_of_lt hr)
    have h' : parser.lexer.Facing .default afterOperand (text first ++ ',' ::
        ([' '] ++ ((earlier.flatMap fun a => text a ++ ", ".toList) ++ lastText))) := by
      simpa using h
    obtain ⟨hat, _, p₁, h₁, m₁, f₁⟩ :=
      hitem first List.mem_cons_self parser afterOperand _ (.refl parser) h'
    obtain ⟨p₂, h₂, m₂, f₂⟩ := leadsTo_accept (f₁.shows_mark .comma (by decide))
    have m₁₂ := m₁.trans m₂
    obtain ⟨p₃, h₃, m₃, hh⟩ := ih
      (fun a ha between afterOperand rest hm =>
        hitem a (List.mem_cons_of_mem first ha) between afterOperand rest (m₁₂.trans hm))
      (fun between afterOperand hm => hlast between afterOperand (m₁₂.trans hm))
      (f₂.pass (LexerMode.skips_space rfl)) (Nat.lt_of_succ_lt_succ hr)
    refine ⟨p₃, ?_, m₁₂.trans m₃, hh⟩
    simp only [commaList, run_bind, hat, Bool.false_eq_true, if_false, h₁, h₂, if_true, h₃, run_pure,
      List.map_cons, List.cons_append]

theorem intercalate_append {α : Type} (text : α → List Char) (earlier : List α) {later : List α}
    (hne : later ≠ []) : ", ".toList.intercalate ((earlier ++ later).map text) =
      (earlier.flatMap fun a => text a ++ ", ".toList) ++ ", ".toList.intercalate (later.map text) := by
  induction earlier with
  | nil => rfl
  | cons first earlier ih =>
    obtain ⟨next, others, he⟩ := List.exists_cons_of_ne_nil (List.append_ne_nil_of_right_ne_nil earlier hne)
    rw [List.cons_append, List.flatMap_cons, List.append_assoc, ← ih, he]
    simp

/-- Items up to a closing brace behind a space: each of them is read where something ends it. -/
theorem leadsTo_items {α β : Type} {item : ParserM β} {text : α → List Char} {result : α → β}
    {items : List α} (hne : items ≠ []) {rounds : Nat}
    (hitem : ∀ a ∈ items, ∀ (between : Parser) (afterOperand : Bool) (rest : List Char),
      parser.Moved between → EndsItem rest →
      between.lexer.Facing .default afterOperand (text a ++ rest) →
      isAt .closeBrace between = .ok false between ∧
        ∃ afterOperand', LeadsTo item between (result a) afterOperand' rest)
    (h : parser.lexer.Facing .default afterOperand
      (", ".toList.intercalate (items.map text) ++ ' ' :: '\x7d' :: rest))
    (hr : items.length ≤ rounds) :
    ∃ afterOperand', LeadsTo (commaList .closeBrace item rounds) parser (items.map result)
      afterOperand' ('\x7d' :: rest) := by
  obtain ⟨earlier, last, rfl⟩ := (List.eq_nil_or_concat items).resolve_left hne
  simp only [List.concat_eq_append] at hitem h hr ⊢
  rw [intercalate_append _ _ (List.cons_ne_nil last []), List.append_assoc, List.map_singleton,
    List.intercalate_singleton] at h
  rw [List.length_append, List.length_singleton] at hr
  suffices hx : Leads (commaList .closeBrace item rounds) parser (earlier.map result ++ [result last])
      fun after => ∃ afterOperand', after.lexer.Facing .default afterOperand' ('\x7d' :: rest) by
    obtain ⟨after, hx, hm, afterOperand', hf⟩ := hx
    exact ⟨afterOperand', after, by rw [List.map_append]; exact hx, hm, hf⟩
  refine leads_items (fun a ha between afterOperand rest hm hf => ?_) (fun between afterOperand hm hf => ?_)
    h hr
  · exact hitem a (List.mem_append_left _ ha) between afterOperand _ hm (.comma rest) hf
  · obtain ⟨hat, _, after, hx, hm', hf'⟩ := hitem last
      (List.mem_append_right _ (List.mem_singleton_self last)) between afterOperand _ hm (.close rest) hf
    have hclose := hf'.skip (Or.inl rfl) (by rintro _ ⟨⟩; rfl)
    obtain ⟨word, hc, hk, -⟩ := (hclose.shows_brace .closeBrace (by decide)).token
    refine ⟨hat, after, hx, hm', ⟨_, hclose⟩, fun found hfound => ?_⟩
    rw [hc] at hfound
    cases hfound
    rw [hk]
    nofun

/-- What stands between the braces around a list of pairs of names. -/
def bracedText : List (String × String) → List Char
  | [] => []
  | pairs => ' ' :: (pairsText pairs ++ [' '])

/-- A list in braces, up to the closing one. -/
theorem leadsTo_braced (build : Node → Node → Node) {pairs : List (String × String)}
    (hn : ∀ pair ∈ pairs, NamePair pair) {rounds : Nat}
    (h : parser.lexer.Facing .default afterOperand (bracedText pairs ++ '\x7d' :: rest))
    (hr : pairs.length < rounds) :
    ∃ afterOperand', LeadsTo (commaList .closeBrace (namePair build) rounds) parser
      (pairs.map fun pair => build (.identifier pair.1) (.identifier pair.2)) afterOperand'
      ('\x7d' :: rest) := by
  cases pairs with
  | nil =>
    obtain ⟨rounds, rfl⟩ := Nat.exists_eq_succ_of_ne_zero (Nat.ne_zero_of_lt hr)
    refine ⟨afterOperand, parser, ?_, .refl parser, h⟩
    have hs := h.shows_brace .closeBrace (by decide)
    simp only [commaList, run_bind, run_isAt_of_shows hs, beq_self_eq_true, if_true, run_pure,
      List.map_nil]
  | cons pair pairs =>
    have he : bracedText (pair :: pairs) ++ '\x7d' :: rest =
        [' '] ++ (pairsText (pair :: pairs) ++ ' ' :: '\x7d' :: rest) := by
      simp [bracedText]
    rw [he] at h
    exact leadsTo_items (List.cons_ne_nil pair pairs)
      (fun other hm _ _ _ _ hend hf => ⟨run_isAt_of_pair hf (hn other hm) hend, true,
        leadsTo_namePair build hf (hn other hm) hend⟩) (h.pass (LexerMode.skips_space rfl)) hr.le

end ParserM

/-- A text that can stand between two of a quote. -/
structure IsQuotable (quote : Char) (contents : List Char) : Prop where
  mark : quote = '\x27' ∨ quote = '\x22'
  body : Scan.stringBody? quote (contents ++ [quote]) = some contents

/-- How a string is written. -/
def quotedText (quote : Char) (contents : List Char) : List Char := quote :: (contents ++ [quote])

theorem IsQuotable.first? {quote : Char} {contents : List Char} (h : IsQuotable quote contents)
    (afterOperand : Bool) (rest : List Char) :
    Rule.first? .default afterOperand (quotedText quote contents ++ rest) =
      some (.form .stringLiteral .string, ⟨[quote], contents, [quote]⟩) := by
  have hplain : (quote == '\\' || quote == '\n' || quote == '\r') = false := by
    rcases h.mark with rfl | rfl <;> rfl
  have hb := Scan.stringBody?_again h.body hplain rest
  have hs : Rule.startingWith quote = [.form .stringLiteral .string] := by
    rcases h.mark with rfl | rfl <;> exact Rule.startingWith_of_lookup rfl
  have ha : (Rule.form .stringLiteral .string).appliesIn .default afterOperand = true := by
    cases afterOperand <;> rfl
  have hq : (quote == '\x27' || quote == '\x22') = true := by
    rcases h.mark with rfl | rfl <;> rfl
  have hm : Rule.match? (.form .stringLiteral .string) (quote :: (contents ++ quote :: rest)) =
      some (.form .stringLiteral .string, ⟨[quote], contents, [quote]⟩) := by
    simp [Rule.match?, Rule.form, Pattern.apply, LexicalForm.match?, Scan.string, hq, hb, Lexeme.raw]
  have he : quotedText quote contents ++ rest = quote :: (contents ++ quote :: rest) := by
    simp [quotedText]
  rw [he]
  refine Rule.first?_of_startingWith rfl hs ?_
  rw [List.findSome?_cons, if_pos ha, hm]

theorem IsQuotable.head_not_space {quote : Char} {contents : List Char} (h : IsQuotable quote contents)
    (rest : List Char) : ∀ c ∈ (quotedText quote contents ++ rest).head?, isSpace c = false := by
  rintro _ ⟨⟩
  rcases h.mark with rfl | rfl <;> rfl

namespace ParserM

variable {parser : Parser} {afterOperand : Bool} {rest : List Char}

/-- A string is read from its quotes. -/
theorem leadsTo_string {quote : Char} {contents : List Char} (hq : IsQuotable quote contents)
    (h : parser.lexer.Facing .default afterOperand (quotedText quote contents ++ rest)) :
    (∃ word, parser.lexer.current = some word ∧ word.kind = .stringLiteral) ∧
      LeadsTo literal parser (.literal (.string (String.ofList contents))
        (String.ofList (quotedText quote contents))) true rest := by
  obtain ⟨earlier, newline, hr, he⟩ := h.emits (List.cons_ne_nil _ _) (hq.first? afterOperand rest) rfl
  obtain ⟨word, hw, hk, hv, hraw⟩ : ∃ word, parser.lexer.current = some word ∧
      word.kind = .stringLiteral ∧ word.value = String.ofList contents ∧
      word.raw = String.ofList (quotedText quote contents) := by
    rw [he]
    exact ⟨_, rfl, rfl, rfl, rfl⟩
  have hrest : parser.lexer.cursor.rest = rest := by
    rw [he]
    simp [Lexer.emit, Cursor.advance, hr, Lexeme.raw, quotedText]
  have hao : parser.lexer.afterOperand = true := by
    rw [he]
    rfl
  refine ⟨⟨word, hw, hk⟩, { parser with lexer := parser.lexer.next .default }, ?_, ⟨_, _, rfl⟩,
    parser.lexer, false, hrest, hao, Lexer.next_eq_nextFrom _ _⟩
  simp only [literal, nextToken, run_bind, run_token hw, hk, run_pure, run_modifyLexer, hv, hraw]

/-- The string that names a module. -/
theorem leadsTo_moduleName {quote : Char} {contents : List Char} (hq : IsQuotable quote contents)
    (h : parser.lexer.Facing .default afterOperand (quotedText quote contents ++ rest)) :
    isAt .stringLiteral parser = .ok true parser ∧
      LeadsTo moduleName parser (.literal (.string (String.ofList contents))
        (String.ofList (quotedText quote contents))) true rest := by
  obtain ⟨⟨word, hw, hk⟩, hx⟩ := leadsTo_string hq h
  have hat : isAt .stringLiteral parser = .ok true parser := by
    simp only [isAt, run_bind, run_current, hw, Option.any_some, hk, beq_self_eq_true, run_pure]
  exact ⟨hat, hx.of_eq (by simp only [moduleName, run_bind, hat, if_true])⟩

/-- What an import binds besides the default value. -/
inductive OtherBindings where
  /-- The module as a whole. -/
  | wholeModule (name : String)
  /-- Some of its names, each with the name that it has here. -/
  | named (pairs : List (String × String))

namespace OtherBindings

/-- The nodes for what is bound. -/
def nodes : OtherBindings → List Node
  | wholeModule name => [.importTarget .wholeModule (.identifier name)]
  | named pairs => pairs.map fun pair => .importSpecifier (.identifier pair.1) (.identifier pair.2)

/-- How it is written. -/
def text : OtherBindings → List Char
  | wholeModule name => "* as ".toList ++ name.toList
  | named pairs => '\x7b' :: (bracedText pairs ++ ['\x7d'])

@[simp] theorem text_wholeModule (name : String) :
    (wholeModule name).text = "* as ".toList ++ name.toList := rfl

@[simp] theorem text_named (pairs : List (String × String)) :
    (named pairs).text = '\x7b' :: (bracedText pairs ++ ['\x7d']) := rfl

/-- All names are names. -/
def Named : OtherBindings → Prop
  | wholeModule name => IsName name.toList
  | named pairs => ∀ pair ∈ pairs, NamePair pair

/-- How many names stand in braces. -/
def count : OtherBindings → Nat
  | wholeModule _ => 0
  | named pairs => pairs.length

end OtherBindings

/-- A step goes through a list of names in braces, up to the closing one. -/
def ReadsList (item : ParserM Node) (text : List Char) (nodes : List Node) (parser : Parser) : Prop :=
  ∀ between : Parser, between.budget = parser.budget → ∀ rest : List Char,
    between.lexer.Facing .default false (text ++ '\x7d' :: rest) →
    ∃ afterOperand, LeadsTo (commaList .closeBrace item between.budget) between nodes afterOperand
      ('\x7d' :: rest)

theorem readsList_pairs (build : Node → Node → Node) {pairs : List (String × String)}
    (hn : ∀ pair ∈ pairs, NamePair pair) (hr : pairs.length < parser.budget) :
    ReadsList (namePair build) (bracedText pairs)
      (pairs.map fun pair => build (.identifier pair.1) (.identifier pair.2)) parser := by
  intro between hb rest hf
  exact leadsTo_braced build hn hf (by rw [hb]; exact hr)

/-- The names that an import binds, in braces. -/
theorem leadsTo_importBraces {text : List Char} {nodes : List Node}
    (hlist : ReadsList importSpecifier text nodes parser)
    (h : parser.lexer.Facing .default afterOperand ('\x7b' :: (text ++ '\x7d' :: rest))) :
    (∃ word, parser.lexer.current = some word ∧ canBeName word = false ∧
      word.kind ≠ .stringLiteral) ∧
      LeadsTo importBindings parser nodes false rest := by
  have hs := h.shows_brace .openBrace (by decide)
  obtain ⟨word, hw, hk, -⟩ := hs.token
  refine ⟨⟨word, hw, by rw [canBeName, hk]; rfl, by rw [hk]; decide⟩, ?_⟩
  have hno := run_acceptText_of_ne hs .operator "*" (by decide)
  obtain ⟨p₁, h₁, m₁, f₁⟩ := leadsTo_require hs
  obtain ⟨_, p₂, h₂, m₂, f₂⟩ := hlist p₁ m₁.budget rest f₁
  obtain ⟨p₃, h₃, m₃, f₃⟩ := leadsTo_require (f₂.shows_brace .closeBrace (by decide))
  refine ⟨p₃, ?_, (m₁.trans m₂).trans m₃, f₃⟩
  simp only [importBindings, closedList, run_bind, hno, Bool.false_eq_true, if_false, h₁, run_budget,
    h₂, h₃, run_pure]

theorem leadsTo_importBindings {others : OtherBindings} (hn : others.Named)
    (h : parser.lexer.Facing .default afterOperand (others.text ++ ' ' :: rest))
    (hr : others.count < parser.budget) :
    (∃ word, parser.lexer.current = some word ∧ canBeName word = false ∧
      word.kind ≠ .stringLiteral) ∧
      ∃ afterOperand', LeadsTo importBindings parser others.nodes afterOperand' (' ' :: rest) := by
  cases others with
  | wholeModule name =>
    have he : (OtherBindings.wholeModule name).text ++ ' ' :: rest =
        "*".toList ++ ' ' :: ("as".toList ++ ' ' :: (name.toList ++ ' ' :: rest)) := by
      simp
    rw [he] at h
    have hs : parser.lexer.Shows .operator (some 14) "*".toList false _ :=
      h.shows (begins_star afterOperand _) rfl rfl
    obtain ⟨word, hw, hk, hv, -⟩ := hs.token
    refine ⟨⟨word, hw, by rw [canBeName, hk, hv]; rfl, by rw [hk]; decide⟩, true, ?_⟩
    obtain ⟨p₁, h₁, m₁, f₁⟩ := leadsTo_acceptText hs
    have f₁' := f₁.skip (Or.inl rfl) (by rintro _ ⟨⟩; rfl)
    have hs' : p₁.lexer.Shows .importOperator none "as".toList false _ :=
      f₁'.shows (begins_importWord (by decide) _ _) rfl rfl
    obtain ⟨p₂, h₂, m₂, f₂⟩ := leadsTo_requireText hs'
    obtain ⟨p₃, h₃, m₃, f₃⟩ := leadsTo_name (f₂.skip (Or.inl rfl) (hn.head_not_space _)) hn rfl
    refine ⟨p₃, ?_, (m₁.trans m₂).trans m₃, f₃⟩
    simp only [importBindings, run_bind, h₁, if_true, h₂, h₃, run_pure, OtherBindings.nodes]
  | named pairs =>
    have he : (OtherBindings.named pairs).text ++ ' ' :: rest =
        '\x7b' :: (bracedText pairs ++ '\x7d' :: ' ' :: rest) := by
      simp
    rw [he] at h
    obtain ⟨hword, hx⟩ := leadsTo_importBraces (readsList_pairs .importSpecifier hn hr) h
    exact ⟨hword, false, hx⟩

/-- All that an import binds. -/
structure ImportClause where
  /-- The name of the default value, if it is bound. -/
  defaultName : Option String
  /-- What else is bound. -/
  others : OtherBindings

namespace ImportClause

variable (clause : ImportClause)

/-- The nodes for what is bound. -/
def nodes : List Node :=
  (clause.defaultName.map fun name => .importTarget .defaultValue (.identifier name)).toList ++
    clause.others.nodes

/-- How it is written. Braces around nothing are left out. -/
def text : List Char :=
  ", ".toList.intercalate ((clause.defaultName.map String.toList).toList ++
    if clause.others.nodes.isEmpty then [] else [clause.others.text])

/-- All names are names. -/
def Named : Prop := (∀ name ∈ clause.defaultName, IsName name.toList) ∧ clause.others.Named

end ImportClause

theorem OtherBindings.Named.head_not_space {others : OtherBindings} (_ : others.Named)
    (rest : List Char) : ∀ c ∈ (others.text ++ rest).head?, isSpace c = false := by
  cases others <;> (rintro _ ⟨⟩; rfl)

theorem ImportClause.Named.head_not_space {clause : ImportClause} (h : clause.Named)
    (he : clause.nodes ≠ []) (rest : List Char) :
    ∀ c ∈ (clause.text ++ rest).head?, isSpace c = false := by
  obtain ⟨defaultName, others⟩ := clause
  by_cases hothers : others.nodes.isEmpty = true
  · cases defaultName with
    | none => exact absurd (List.isEmpty_iff.mp hothers) he
    | some name =>
      simpa [ImportClause.text, hothers] using (h.1 name rfl).head_not_space rest
  · cases defaultName with
    | none => simpa [ImportClause.text, hothers] using h.2.head_not_space rest
    | some name =>
      have ht : ImportClause.text ⟨some name, others⟩ ++ rest =
          name.toList ++ (',' :: ' ' :: others.text ++ rest) := by
        simp [ImportClause.text, hothers]
      rw [ht]
      exact (h.1 name rfl).head_not_space _

/-- What an import binds, up to the word before the module. -/
theorem leadsTo_importSpecifiers {clause : ImportClause} (hn : clause.Named) (he : clause.nodes ≠ [])
    (h : parser.lexer.Facing .default afterOperand
      (clause.text ++ ' ' :: ("from".toList ++ ' ' :: rest)))
    (hr : clause.others.count < parser.budget) :
    isAt .stringLiteral parser = .ok false parser ∧ ∃ afterOperand',
      LeadsTo importSpecifiers parser clause.nodes afterOperand'
        (' ' :: ("from".toList ++ ' ' :: rest)) := by
  obtain ⟨defaultName, others⟩ := clause
  cases defaultName with
  | none =>
    have hothers : others.nodes.isEmpty = false := by
      rw [List.isEmpty_eq_false_iff]
      exact he
    have ht : ImportClause.text ⟨none, others⟩ = others.text := by
      simp [ImportClause.text, hothers]
    rw [ht] at h
    obtain ⟨⟨word, hw, hcan, hk⟩, afterOperand', p₁, h₁, m₁, f₁⟩ :=
      leadsTo_importBindings hn.2 h hr
    refine ⟨run_isAt_of_ne hw hk, afterOperand', p₁, ?_, m₁, f₁⟩
    simp only [importSpecifiers, run_bind, run_current, hw, Option.any_some, hcan, Bool.false_eq_true,
      if_false, h₁]
    rfl
  | some name =>
    have hname : IsName name.toList := hn.1 name rfl
    by_cases hothers : others.nodes.isEmpty = true
    · have ht : ImportClause.text ⟨some name, others⟩ = name.toList := by
        simp [ImportClause.text, hothers]
      rw [ht] at h
      obtain ⟨word, hw, hcan, -⟩ := h.anyName hname rfl
      obtain ⟨p₁, h₁, m₁, f₁⟩ := leadsTo_name h hname rfl
      have hs : p₁.lexer.Shows .importOperator none "from".toList false _ :=
        (f₁.skip (Or.inl rfl) (by rintro _ ⟨⟩; rfl)).shows (begins_importWord (by decide) _ _) rfl rfl
      have hno := run_accept_of_shows_ne hs .comma nofun
      have hnodes : ImportClause.nodes ⟨some name, others⟩ =
          [.importTarget .defaultValue (.identifier name)] := by
        simp [ImportClause.nodes, List.isEmpty_iff.mp hothers]
      refine ⟨run_isAt_of_ne hw (ne_of_canBeName hcan (by decide)), true, p₁, ?_, m₁, f₁⟩
      simp only [importSpecifiers, run_bind, run_current, hw, Option.any_some, hcan, if_true, h₁, hno,
        Bool.false_eq_true, if_false, run_pure, hnodes]
    · have ht : ImportClause.text ⟨some name, others⟩ ++ ' ' :: ("from".toList ++ ' ' :: rest) =
          name.toList ++ ',' :: ' ' :: (others.text ++ ' ' :: ("from".toList ++ ' ' :: rest)) := by
        simp [ImportClause.text, hothers]
      rw [ht] at h
      obtain ⟨word, hw, hcan, -⟩ := h.anyName hname rfl
      obtain ⟨p₁, h₁, m₁, f₁⟩ := leadsTo_name h hname rfl
      obtain ⟨p₂, h₂, m₂, f₂⟩ := leadsTo_accept (f₁.shows_mark .comma (by decide))
      have m₂' := m₁.trans m₂
      obtain ⟨-, afterOperand', p₃, h₃, m₃, f₃⟩ := leadsTo_importBindings hn.2
        (f₂.skip (Or.inl rfl) (hn.2.head_not_space _)) (by rw [m₂'.budget]; exact hr)
      refine ⟨run_isAt_of_ne hw (ne_of_canBeName hcan (by decide)), afterOperand', p₃, ?_,
        m₂'.trans m₃, f₃⟩
      simp only [importSpecifiers, run_bind, run_current, hw, Option.any_some, hcan, if_true, h₁, h₂,
        h₃, run_pure]
      rfl

/-- How an import is written, by what it binds and the string behind. -/
def importText (clause : ImportClause) (source : List Char) : List Char :=
  "import".toList ++ ' ' :: ((if clause.nodes.isEmpty then []
    else clause.text ++ ' ' :: ("from".toList ++ [' '])) ++ source ++ [';'])

/-- An import starts with its keyword. -/
theorem shows_import {lexer : Lexer} {clause : ImportClause} {source : List Char}
    (h : lexer.Facing .default afterOperand (importText clause source ++ rest)) :
    ∃ behind, lexer.Shows .importKeyword none "import".toList false behind := by
  have ht : importText clause source ++ rest = "import".toList ++ ' ' ::
      ((if clause.nodes.isEmpty then [] else clause.text ++ ' ' :: ("from".toList ++ [' '])) ++
        source ++ [';'] ++ rest) := by
    unfold importText
    simp only [List.append_assoc, List.cons_append]
  rw [ht] at h
  exact ⟨_, h.shows (begins_import afterOperand _) rfl rfl⟩

/-- An import, up to the string behind the names. -/
theorem leadsTo_importNames {text : List Char} {nodes : List Node} {quote : Char}
    {contents : List Char} (hq : IsQuotable quote contents)
    (ht : ∀ rest, ∀ c ∈ (text ++ rest).head?, isSpace c = false)
    (hnames : ∀ between : Parser, between.budget = parser.budget →
      ∀ rest : List Char, between.lexer.Facing .default false (text ++ ' ' :: ("from".toList ++ ' ' :: rest)) →
      isAt .stringLiteral between = .ok false between ∧ ∃ afterOperand, LeadsTo importSpecifiers between
        nodes afterOperand (' ' :: ("from".toList ++ ' ' :: rest)))
    (h : parser.lexer.Facing .default afterOperand ("import".toList ++ ' ' :: (text ++
      ' ' :: ("from".toList ++ ' ' :: (quotedText quote contents ++ rest)))))
    (hd : parser.context.length < parser.options.maxDepth) :
    ∃ between, parser.Moved between ∧ between.lexer.Facing .default true rest ∧
      importDeclaration parser = (do
        let _ ← accept .semicolon
        pure (Node.importDeclaration nodes
          (.literal (.string (String.ofList contents)) (String.ofList (quotedText quote contents)))))
        between := by
  have hs : parser.lexer.Shows .importKeyword none "import".toList false _ :=
    h.shows (begins_import afterOperand _) rfl rfl
  obtain ⟨p₁, h₁, m₁, f₁⟩ := leadsTo_nextToken hs
  have f₁' := f₁.skip (Or.inl rfl) (ht _)
  -- the names are read inside a construct, which sees the same tokens
  obtain ⟨hat, -⟩ := hnames p₁ m₁.budget _ f₁'
  obtain ⟨-, afterOperand', hx⟩ := hnames
    { p₁ with context := .filling .importDeclaration .specifiers :: p₁.context } m₁.budget _ f₁'
  obtain ⟨p₂, h₂, m₂, f₂⟩ := hx.within (fun _ _ f => f) (by rw [m₁.context, m₁.options]; exact hd)
  have hs' : p₂.lexer.Shows .importOperator none "from".toList false _ :=
    (f₂.skip (Or.inl rfl) (by rintro _ ⟨⟩; rfl)).shows (begins_importWord (by decide) _ _) rfl rfl
  obtain ⟨p₃, h₃, m₃, f₃⟩ := leadsTo_requireText hs'
  obtain ⟨p₄, h₄, m₄, f₄⟩ := (leadsTo_moduleName hq (f₃.skip (Or.inl rfl) (hq.head_not_space rest))).2
  refine ⟨p₄, (m₁.trans m₂).trans (m₃.trans m₄), f₄, ?_⟩
  simp only [importDeclaration, run_bind, h₁, hat, Bool.false_eq_true, if_false, h₂, h₃, h₄, run_pure]

theorem leadsTo_importDeclaration {clause : ImportClause} {quote : Char} {contents : List Char}
    (hn : clause.Named) (hq : IsQuotable quote contents)
    (h : parser.lexer.Facing .default afterOperand
      (importText clause (quotedText quote contents) ++ rest))
    (hr : clause.others.count < parser.budget)
    (hd : parser.context.length < parser.options.maxDepth) :
    LeadsTo importDeclaration parser (.importDeclaration clause.nodes
      (.literal (.string (String.ofList contents)) (String.ofList (quotedText quote contents))))
      false rest := by
  by_cases he : clause.nodes = []
  · have ht : importText clause (quotedText quote contents) ++ rest =
        "import".toList ++ ' ' :: (quotedText quote contents ++ ';' :: rest) := by
      unfold importText
      simp [he]
    rw [ht] at h
    have hs : parser.lexer.Shows .importKeyword none "import".toList false _ :=
      h.shows (begins_import afterOperand _) rfl rfl
    obtain ⟨p₁, h₁, m₁, f₁⟩ := leadsTo_nextToken hs
    obtain ⟨hat, p₂, h₂, m₂, f₂⟩ := leadsTo_moduleName hq (f₁.skip (Or.inl rfl) (hq.head_not_space _))
    obtain ⟨p₃, h₃, m₃, f₃⟩ := leadsTo_accept (f₂.shows_mark .semicolon (by decide))
    refine ⟨p₃, ?_, (m₁.trans m₂).trans m₃, f₃⟩
    simp only [importDeclaration, run_bind, h₁, hat, if_true, h₂, h₃, run_pure, he]
  · have ht : importText clause (quotedText quote contents) ++ rest =
        "import".toList ++ ' ' :: (clause.text ++
          ' ' :: ("from".toList ++ ' ' :: (quotedText quote contents ++ ';' :: rest))) := by
      unfold importText
      simp [he]
    rw [ht] at h
    obtain ⟨p₁, m₁, f₁, h₁⟩ := leadsTo_importNames hq (hn.head_not_space he)
      (fun between hb rest hf => leadsTo_importSpecifiers hn he hf (by rw [hb]; exact hr)) h hd
    obtain ⟨p₂, h₂, m₂, f₂⟩ := leadsTo_accept (f₁.shows_mark .semicolon (by decide))
    refine ⟨p₂, ?_, m₁.trans m₂, f₂⟩
    rw [h₁]
    simp only [run_bind, h₂, run_pure]

/-- How an export of names is written, by the names and the string behind, if there is one. -/
def exportText (pairs : List (String × String)) (source : Option (List Char)) : List Char :=
  "export".toList ++ ' ' :: '\x7b' :: (bracedText pairs ++ '\x7d' ::
    ((source.map fun text => ' ' :: ("from".toList ++ ' ' :: text)).getD [] ++ [';']))

/-- An export of names starts with its keyword. -/
theorem shows_export {lexer : Lexer} {pairs : List (String × String)} {source : Option (List Char)}
    (h : lexer.Facing .default afterOperand (exportText pairs source ++ rest)) :
    ∃ behind, lexer.Shows .exportKeyword none "export".toList false behind := by
  have ht : exportText pairs source ++ rest = "export".toList ++ ' ' :: '\x7b' ::
      (bracedText pairs ++ '\x7d' ::
        ((source.map fun text => ' ' :: ("from".toList ++ ' ' :: text)).getD [] ++ [';']) ++ rest) := by
    unfold exportText
    simp only [List.append_assoc, List.cons_append]
  rw [ht] at h
  exact ⟨_, h.shows (begins_export afterOperand _) rfl rfl⟩

/-- The nodes for what an export names. -/
def exportNodes (pairs : List (String × String)) : List Node :=
  pairs.map fun pair => .exportSpecifier (.identifier pair.1) (.identifier pair.2)

/-- What an export names, over the closing brace. -/
theorem leadsTo_exported {sub : Goal → ParserM Node} {text : List Char} {nodes : List Node}
    (hlist : ReadsList exportSpecifier text nodes parser)
    (h : parser.lexer.Facing .default afterOperand
      ("export".toList ++ ' ' :: '\x7b' :: (text ++ '\x7d' :: rest)))
    (hd : parser.context.length < parser.options.maxDepth) :
    ∃ between, parser.Moved between ∧ between.lexer.Facing .default false rest ∧
      exportStatement sub parser = (do
        let source ←
          if ← acceptText .importOperator "from" then
            let source ← moduleName
            pure (some source)
          else pure none
        let _ ← accept .semicolon
        pure (Node.exportNamed nodes source))
        between := by
  have hs : parser.lexer.Shows .exportKeyword none "export".toList false _ :=
    h.shows (begins_export afterOperand _) rfl rfl
  obtain ⟨p₁, h₁, m₁, f₁⟩ := leadsTo_nextToken hs
  have hs₁ := (f₁.skip (Or.inl rfl) (by rintro _ ⟨⟩; rfl)).shows_brace .openBrace (by decide)
  obtain ⟨p₂, h₂, m₂, f₂⟩ := leadsTo_nextToken hs₁
  have m₂' := m₁.trans m₂
  obtain ⟨afterOperand', hx⟩ := hlist
    { p₂ with context := .filling .exportNamedDeclaration .specifiers :: p₂.context } m₂'.budget rest f₂
  obtain ⟨p₃, h₃, m₃, f₃⟩ := hx.within (fun _ _ f => f) (by rw [m₂'.context, m₂'.options]; exact hd)
  obtain ⟨p₄, h₄, m₄, f₄⟩ := leadsTo_require (f₃.shows_brace .closeBrace (by decide))
  refine ⟨p₄, m₂'.trans (m₃.trans m₄), f₄, ?_⟩
  have h₃' : within (.filling .exportNamedDeclaration .specifiers)
      (budget >>= fun rounds => commaList .closeBrace exportSpecifier rounds) p₂ = .ok nodes p₃ := by
    rw [← h₃]
    refine within_congr ?_
    rw [run_bind, run_budget]
  have hat : isAt .openBrace p₁ = .ok true p₁ := run_isAt_of_shows hs₁ .openBrace
  simp only [exportStatement, exportNamed, run_bind, h₁, hat, if_true, h₂, h₃', h₄]

theorem leadsTo_exportStatement (sub : Goal → ParserM Node) {pairs : List (String × String)}
    {source : Option (Char × List Char)} (hn : ∀ pair ∈ pairs, NamePair pair)
    (hq : ∀ quoted ∈ source, IsQuotable quoted.1 quoted.2)
    (h : parser.lexer.Facing .default afterOperand
      (exportText pairs (source.map fun quoted => quotedText quoted.1 quoted.2) ++ rest))
    (hr : pairs.length < parser.budget) (hd : parser.context.length < parser.options.maxDepth) :
    LeadsTo (exportStatement sub) parser (.exportNamed (exportNodes pairs)
      (source.map fun quoted => .literal (.string (String.ofList quoted.2))
        (String.ofList (quotedText quoted.1 quoted.2)))) false rest := by
  have hlist : ReadsList exportSpecifier (bracedText pairs) (exportNodes pairs) parser :=
    readsList_pairs .exportSpecifier hn hr
  cases source with
  | none =>
    have ht : exportText pairs none ++ rest =
        "export".toList ++ ' ' :: '\x7b' :: (bracedText pairs ++ '\x7d' :: ';' :: rest) := by
      unfold exportText
      simp
    rw [Option.map_none, ht] at h
    obtain ⟨p₁, m₁, f₁, h₁⟩ := leadsTo_exported hlist h hd
    have hs := f₁.shows_mark .semicolon (by decide)
    have hno := run_acceptText_of_ne hs .importOperator "from" nofun
    obtain ⟨p₂, h₂, m₂, f₂⟩ := leadsTo_accept hs
    refine ⟨p₂, ?_, m₁.trans m₂, f₂⟩
    rw [h₁]
    simp only [run_bind, hno, Bool.false_eq_true, if_false, run_pure, h₂, Option.map_none]
  | some quoted =>
    obtain ⟨quote, contents⟩ := quoted
    have hquoted : IsQuotable quote contents := hq _ rfl
    have ht : exportText pairs (some (quotedText quote contents)) ++ rest =
        "export".toList ++ ' ' :: '\x7b' :: (bracedText pairs ++ '\x7d' :: ' ' ::
          ("from".toList ++ ' ' :: (quotedText quote contents ++ ';' :: rest))) := by
      unfold exportText
      simp
    have hsource : ∀ c ∈ (quotedText quote contents ++ ';' :: rest).head?, isSpace c = false := by
      rintro _ ⟨⟩
      rcases hquoted.mark with rfl | rfl <;> rfl
    rw [Option.map_some, ht] at h
    obtain ⟨p₁, m₁, f₁, h₁⟩ := leadsTo_exported hlist h hd
    have hs : p₁.lexer.Shows .importOperator none "from".toList false _ :=
      (f₁.skip (Or.inl rfl) (by rintro _ ⟨⟩; rfl)).shows (begins_importWord (by decide) _ _) rfl rfl
    obtain ⟨p₂, h₂, m₂, f₂⟩ := leadsTo_acceptText hs
    obtain ⟨p₃, h₃, m₃, f₃⟩ := (leadsTo_moduleName hquoted (f₂.skip (Or.inl rfl) hsource)).2
    obtain ⟨p₄, h₄, m₄, f₄⟩ := leadsTo_accept (f₃.shows_mark .semicolon (by decide))
    refine ⟨p₄, ?_, (m₁.trans m₂).trans (m₃.trans m₄), f₄⟩
    rw [h₁]
    simp only [run_bind, h₂, if_true, h₃, run_pure, h₄, Option.map_some]

end ParserM

end ScriptTree
