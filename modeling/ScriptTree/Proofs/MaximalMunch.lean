import ScriptTree.Proofs.MisreadNames
import ScriptTree.Proofs.NameTables

/-!
The order of the table makes every match as long as it can be: no rule splits a name, and no mark is
taken where a longer one stands.
-/

namespace ScriptTree

/-- What it means that the first matching rule takes as much as it can, for the characters that start a
name and those that go on with one. -/
structure MaximalMunch (isStart isPart : Char → Bool)
    (first? : LexerMode → Bool → List Char → Option (Rule × Lexeme)) : Prop where
  /-- Where a name starts, whatever is taken holds the whole run of name characters. -/
  whole_name : ∀ mode afterOperand c text rule lexeme, mode.template = false → isStart c = true →
    first? mode afterOperand (c :: text) = some (rule, lexeme) →
    c :: text.takeWhile isPart <+: lexeme.raw
  /-- Without keywords and with every kind looked for, it is the run itself, as a name. -/
  plain_name : ∀ mode afterOperand c text, mode.template = false → isStart c = true →
    mode.keywords = false → mode.expected = none →
    first? mode afterOperand (c :: text) =
      some (.form .identifierName .identifier, .whole (c :: text.takeWhile isPart))
  /-- Where a mark is taken, no longer mark that is looked for stands at the start of the text. -/
  longest_mark : ∀ mode afterOperand text rule lexeme spellings, mode.template = false →
    first? mode afterOperand text = some (rule, lexeme) → rule.pattern = .punctuators spellings →
    ∃ mark ∈ spellings, mark.toList = lexeme.raw ∧
      ∀ other ∈ Rule.table, other.appliesIn mode afterOperand = true →
        ∀ longer, other.pattern = .punctuators longer → ∀ spelling ∈ longer,
          mark.toList <+: spelling.toList → spelling.toList <+: text → spelling = mark

namespace NameTables

variable (names : NameTables)

/-! ### Where a name has ended -/

/-- A piece at the start of a text that no name goes on with: a character that belongs to no name is
in it, or a boundary stands behind it. -/
def Ends (piece text : List Char) : Prop :=
  ∃ behind, text = piece ++ behind ∧ (names.atBoundary behind = true ∨
    ∃ d ∈ piece, names.isStart d = false ∧ names.isPart d = false)

variable {names}

theorem Ends.append {front piece text rest : List Char} (ht : text = front ++ rest)
    (h : names.Ends piece rest) : names.Ends (front ++ piece) text := by
  obtain ⟨behind, rfl, hend⟩ := h
  refine ⟨behind, by rw [ht, List.append_assoc], ?_⟩
  rcases hend with hbound | ⟨d, hd, hno⟩
  · exact Or.inl hbound
  · exact Or.inr ⟨d, List.mem_append_right front hd, hno⟩

theorem ends_of_afterWord? {word text rest : List Char} (h : names.afterWord? word text = some rest) :
    text = word ++ rest ∧ names.Ends word text := by
  rw [afterWord?, Option.filter_eq_some_iff] at h
  have ht : text = word ++ rest := eq_append_of_afterSpelling? h.1
  exact ⟨ht, rest, ht, Or.inl h.2⟩

/-- A piece that ends a name holds all of it: the run cannot go on behind a boundary, and it cannot
pass a character that belongs to no name. -/
theorem Ends.holds_run {c : Char} {text piece : List Char} (hc : names.isStart c = true)
    (h : names.Ends piece (c :: text)) (hne : piece ≠ []) :
    c :: text.takeWhile names.isPart <+: piece := by
  obtain ⟨behind, ht, hend⟩ := h
  cases piece with
  | nil => exact absurd rfl hne
  | cons d piece =>
    obtain ⟨rfl, rfl⟩ : c = d ∧ text = piece ++ behind := List.cons.inj ht
    apply cons_isPrefix
    rw [List.takeWhile_append]
    split
    · rename_i hfull
      have hall : piece.takeWhile names.isPart = piece :=
        (List.takeWhile_prefix _).eq_of_length hfull
      -- all of the piece goes on with the name, so it must be the boundary that ends it
      have hbehind : behind.takeWhile names.isPart = [] := by
        rcases hend with hbound | ⟨d, hd, hstart, hpart⟩
        · cases behind with
          | nil => rfl
          | cons e behind =>
            rw [atBoundary, Bool.not_eq_true'] at hbound
            rw [List.takeWhile_cons, hbound]
            rfl
        · rcases List.mem_cons.mp hd with rfl | hd
          · rw [hc] at hstart
            cases hstart
          · have hyes : names.isPart d = true := List.takeWhile_eq_self_iff.mp hall d hd
            rw [hpart] at hyes
            cases hyes
      rw [hbehind, List.append_nil]
    · exact List.takeWhile_prefix _

/-! ### The keyword forms -/

theorem ends_starOrBoundary? {text star : List Char} (h : names.starOrBoundary? text = some star) :
    names.Ends star text := by
  unfold starOrBoundary? at h
  split at h
  · rename_i rest hs
    cases h
    refine ⟨rest, ?_, Or.inr ⟨'*', by simp, rfl, rfl⟩⟩
    rw [List.append_assoc, List.singleton_append, ← hs, leadingSpace_append]
  · split at h
    · rename_i hbound
      cases h
      exact ⟨text, rfl, Or.inl hbound⟩
    · cases h

theorem ends_plainFunction? {text head : List Char} (h : names.plainFunction? text = some head) :
    names.Ends head text := by
  simp only [plainFunction?, Option.bind_eq_bind, Option.bind_eq_some_iff, Option.some.injEq] at h
  obtain ⟨rest, hr, star, hs, rfl⟩ := h
  exact (ends_starOrBoundary? hs).append (eq_append_of_afterSpelling? hr)

theorem ends_functionHead {text : List Char} {lexeme : Lexeme}
    (h : names.functionHead text = some lexeme) : names.Ends lexeme.raw text := by
  unfold functionHead at h
  split at h
  · rename_i rest hr
    split at h
    · cases h
    · obtain ⟨head, hh, rfl⟩ := Option.map_eq_some_iff.mp h
      simp only [Lexeme.raw, Lexeme.whole, List.nil_append, List.append_nil, List.append_assoc]
      apply Ends.append (eq_append_of_afterSpelling? hr)
      exact (ends_plainFunction? hh).append (leadingSpace_append rest).symm
  · obtain ⟨head, hh, rfl⟩ := Option.map_eq_some_iff.mp h
    simpa [Lexeme.raw, Lexeme.whole] using ends_plainFunction? hh

theorem ends_yieldHead {text : List Char} {lexeme : Lexeme} (h : names.yieldHead text = some lexeme) :
    names.Ends lexeme.raw text := by
  simp only [yieldHead, Option.bind_eq_bind, Option.bind_eq_some_iff, Option.some.injEq] at h
  obtain ⟨rest, hr, star, hs, rfl⟩ := h
  simp only [Lexeme.raw, Lexeme.whole, List.nil_append, List.append_nil]
  exact (ends_starOrBoundary? hs).append (eq_append_of_afterSpelling? hr)

theorem eq_append_of_forWords? {text words rest : List Char}
    (h : names.forWords? text = some (words, rest)) : text = words ++ rest := by
  simp only [forWords?, Option.bind_eq_bind, Option.bind_eq_some_iff] at h
  obtain ⟨behind, hb, h⟩ := h
  have ht := (ends_of_afterWord? hb).1
  split at h
  · cases h
    exact ht
  · split at h
    · rename_i last hl
      cases h
      rw [ht, List.append_assoc, List.append_assoc, ← (ends_of_afterWord? hl).1,
        leadingSpace_append]
    · cases h
      exact ht

theorem ends_forHead {text : List Char} {lexeme : Lexeme} (h : names.forHead text = some lexeme) :
    names.Ends lexeme.raw text := by
  simp only [forHead, Option.bind_eq_bind, Option.bind_eq_some_iff] at h
  obtain ⟨⟨words, rest⟩, hw, h⟩ := h
  dsimp only at h
  split at h
  · rename_i behind hs
    cases h
    -- the parenthesis belongs to no name
    refine ⟨behind, ?_, Or.inr ⟨'(', by simp [Lexeme.raw], rfl, rfl⟩⟩
    rw [eq_append_of_forWords? hw]
    simp only [Lexeme.raw, List.nil_append, List.append_assoc, List.singleton_append]
    rw [← hs, leadingSpace_append]
  · cases h

theorem ends_wordBeforeSpace {words : List (List Char)} {text : List Char} {lexeme : Lexeme}
    (h : names.wordBeforeSpace words text = some lexeme) : names.Ends lexeme.raw text := by
  obtain ⟨word, -, hw⟩ := List.exists_of_findSome?_eq_some h
  split at hw
  · rename_i c rest hr
    split at hw
    · cases hw
      simpa [Lexeme.raw, Lexeme.whole] using (ends_of_afterWord? hr).2
    · cases hw
  · cases hw

theorem ends_exportDefault {text : List Char} {lexeme : Lexeme}
    (h : names.exportDefault text = some lexeme) : names.Ends lexeme.raw text := by
  simp only [exportDefault, Option.bind_eq_bind, Option.bind_eq_some_iff] at h
  obtain ⟨rest, hr, h⟩ := h
  split at h
  · cases h
  · obtain ⟨behind, hb, he⟩ := Option.bind_eq_some_iff.mp h
    cases he
    simp only [Lexeme.raw, Lexeme.whole, List.nil_append, List.append_nil, List.append_assoc]
    apply Ends.append (ends_of_afterWord? hr).1
    exact (ends_of_afterWord? hb).2.append (leadingSpace_append rest).symm

/-- The name a text starts with is followed by a boundary. -/
theorem ends_name? {text name : List Char} (h : names.name? text = some name) :
    names.Ends name text := by
  cases text with
  | nil => cases h
  | cons c text =>
    rw [name?] at h
    split at h
    · cases h
      refine ⟨text.dropWhile names.isPart, ?_, Or.inl ?_⟩
      · rw [List.cons_append, List.takeWhile_append_dropWhile]
      · cases hrest : text.dropWhile names.isPart with
        | nil => rfl
        | cons d rest =>
          have hd : names.isPart d = false := by
            have hfirst := List.head?_dropWhile_not names.isPart text
            rw [hrest] at hfirst
            simpa using hfirst
          rw [atBoundary, hd, Bool.not_false]
    · cases h

theorem ends_jump {word text : List Char} {lexeme : Lexeme} (h : names.jump word text = some lexeme) :
    names.Ends lexeme.raw text := by
  simp only [jump, Option.bind_eq_bind, Option.bind_eq_some_iff] at h
  obtain ⟨rest, hr, h⟩ := h
  obtain ⟨ht, hword⟩ := ends_of_afterWord? hr
  have hw : names.Ends (⟨word, [], []⟩ : Lexeme).raw text := by
    simpa only [Lexeme.raw, List.append_nil] using hword
  split at h
  · cases h
    exact hw
  · split at h
    · rename_i label hl
      cases h
      simp only [Lexeme.raw, List.append_nil, List.append_assoc]
      apply Ends.append ht
      exact (ends_name? hl).append List.takeWhile_append_dropWhile.symm
    · cases h
      exact hw

/-! ### The rules of the table -/

/-- Lexical forms that belong to the keyword rules. -/
def isKeywordForm : LexicalForm → Bool
  | .functionHead | .yieldHead | .forHead | .relationalWord | .continueJump | .breakJump
  | .importWord | .exportDefault => true
  | _ => false

/-- The marks of a rule. -/
def marksOf (rule : Rule) : List String :=
  match rule.pattern with
  | .punctuators spellings => spellings
  | _ => []

/-- The rule for names. -/
def nameRule : Rule := .form .identifierName .identifier

/-- How the table is made up: words and the forms that start with a word belong to keyword rules, and
marks start with an ASCII character that no name starts with. -/
def IsOrderly (rule : Rule) : Prop :=
  match rule.pattern with
  | .words _ => rule.keyword = true
  | .punctuators spellings => ∀ spelling ∈ spellings,
    (spelling.toList.head?.any fun c => decide (c.toNat ≤ 0x7F) && !isNameStart c) = true
  | .form lexical =>
    lexical ≠ .templateChunk ∧ (isKeywordForm lexical = true → rule.keyword = true) ∧
      (lexical = .identifier → rule = nameRule)

instance (rule : Rule) : Decidable (IsOrderly rule) := by
  unfold IsOrderly
  split <;> infer_instance

/-- The rules of the table are orderly, and in its order no mark is the beginning of a later one. -/
theorem table_orderly : (∀ rule ∈ Rule.table, IsOrderly rule) ∧
    (Rule.table.flatMap marksOf).Pairwise fun mark later => ¬ mark.toList <+: later.toList := by
  decide

/-- All answers agree on ASCII. -/
theorem isStart_of_le {c : Char} (h : c.toNat ≤ 0x7F) : names.isStart c = isNameStart c := by
  have hwide : decide (0x7F < c.toNat) = false := decide_eq_false (Nat.not_lt.mpr h)
  rw [isStart, isNameStart, isWideNameStart, hwide, Bool.false_and, Bool.false_and]

theorem not_isDigit_of_isStart {c : Char} (hc : names.isStart c = true) : c.isDigit = false := by
  rw [Bool.eq_false_iff]
  intro hdigit
  have hcode : c.toNat ≤ 0x7F := le_trans (isDigit_iff.mp hdigit).2 (by decide)
  rw [isStart_of_le hcode] at hc
  rw [not_isDigit_of_isNameStart hc] at hdigit
  cases hdigit

theorem not_isSpace_of_isStart {c : Char} (hc : names.isStart c = true) : isSpace c = false := by
  rw [isStart, Bool.or_eq_true, Bool.and_eq_true, decide_eq_true_eq] at hc
  rcases hc with hascii | ⟨hcode, hwide⟩
  · apply isSpace_of_isNameStart
    rw [isNameStart, hascii, Bool.true_or]
  · rw [Bool.eq_false_iff]
    intro hspace
    rw [names.startsWide_space c hspace hcode] at hwide
    cases hwide

theorem ne_of_isStart {c d : Char} (hc : names.isStart c = true) (hd : names.isStart d = false) :
    c ≠ d := by
  rintro rfl
  rw [hd] at hc
  cases hc

/-- Where a name starts, a form either is that of a keyword rule or reads the name. -/
theorem form_of_start {lexical : LexicalForm} {c : Char} {text : List Char} {lexeme : Lexeme}
    (hl : lexical ≠ .templateChunk) (hc : names.isStart c = true)
    (h : names.form lexical (c :: text) = some lexeme) :
    names.Ends lexeme.raw (c :: text) ∧ (isKeywordForm lexical = true ∨ lexical = .identifier) := by
  -- the other forms start with a character that no name starts with
  have never (hno : lexical.canStart c = false) (hform : names.form lexical = lexical.match?) :
      False := by
    rw [hform, LexicalForm.match?_eq_none text hno] at h
    cases h
  have hspace := not_isSpace_of_isStart hc
  cases lexical with
  | functionHead => exact ⟨ends_functionHead h, Or.inl rfl⟩
  | yieldHead => exact ⟨ends_yieldHead h, Or.inl rfl⟩
  | forHead => exact ⟨ends_forHead h, Or.inl rfl⟩
  | relationalWord | importWord => exact ⟨ends_wordBeforeSpace h, Or.inl rfl⟩
  | continueJump | breakJump => exact ⟨ends_jump h, Or.inl rfl⟩
  | exportDefault => exact ⟨ends_exportDefault h, Or.inl rfl⟩
  | identifier =>
    obtain ⟨name, hn, rfl⟩ := Option.map_eq_some_iff.mp h
    refine ⟨?_, Or.inr rfl⟩
    simpa [Lexeme.raw, Lexeme.whole] using ends_name? hn
  | number =>
    have hdot : c ≠ '.' := ne_of_isStart hc rfl
    have hnone : Scan.numeral? (c :: text) = none := by
      apply Scan.numeral?_eq_none
      rw [not_isDigit_of_isStart hc, Bool.false_or, beq_eq_false_iff_ne]
      exact hdot
    rw [form, number, hnone] at h
    cases h
  | blockComment | lineComment | regex =>
    have hslash : c ≠ '/' := ne_of_isStart hc rfl
    exact (never (by simpa [LexicalForm.canStart] using hslash) rfl).elim
  | string =>
    have hsingle : c ≠ '\x27' := ne_of_isStart hc rfl
    have hdouble : c ≠ '\x22' := ne_of_isStart hc rfl
    exact (never (by simp [LexicalForm.canStart, hsingle, hdouble]) rfl).elim
  | lineFeed =>
    have hfeed : c ≠ '\n' := ne_of_isStart hc rfl
    exact (never (by simpa [LexicalForm.canStart] using hfeed) rfl).elim
  | inlineSpace | space => exact (never hspace rfl).elim
  | templateChunk => exact absurd rfl hl

/-- Where a name starts, a rule of the table that matches is a keyword rule or that for names, and
what it matches ends the name. -/
theorem apply_of_start {rule : Rule} {c : Char} {text : List Char} {lexeme : Lexeme}
    (hrule : rule ∈ Rule.table) (hc : names.isStart c = true)
    (h : names.apply rule.pattern (c :: text) = some lexeme) :
    names.Ends lexeme.raw (c :: text) ∧ (rule.keyword = true ∨ rule = nameRule) := by
  have horder := table_orderly.1 rule hrule
  unfold IsOrderly at horder
  split at horder
  · rename_i spellings hp
    rw [hp] at h
    obtain ⟨word, hw, rfl⟩ := Option.map_eq_some_iff.mp h
    have hs : (names.afterWord? word.toList (c :: text)).isSome = true := by
      simpa using List.find?_some hw
    obtain ⟨rest, hr⟩ := Option.isSome_iff_exists.mp hs
    refine ⟨?_, Or.inl horder⟩
    simpa [Lexeme.raw, Lexeme.whole] using (ends_of_afterWord? hr).2
  · rename_i spellings hp
    rw [hp] at h
    obtain ⟨mark, hw, -⟩ := Option.map_eq_some_iff.mp h
    have hs : (afterSpelling? mark.toList (c :: text)).isSome = true := by
      simpa using List.find?_some hw
    obtain ⟨rest, hr⟩ := Option.isSome_iff_exists.mp hs
    -- the mark would start with the first character of the name
    have hfirst := horder mark (List.mem_of_find?_eq_some hw)
    have ht := eq_append_of_afterSpelling? hr
    cases hmark : mark.toList with
    | nil => simp [hmark] at hfirst
    | cons d tail =>
      rw [hmark] at hfirst ht
      obtain ⟨rfl, -⟩ : c = d ∧ text = tail ++ rest := List.cons.inj ht
      simp only [List.head?_cons, Option.any_some, Bool.and_eq_true, decide_eq_true_eq,
        Bool.not_eq_true'] at hfirst
      rw [isStart_of_le hfirst.1, hfirst.2] at hc
      cases hc
  · rename_i lexical hp
    rw [hp] at h
    obtain ⟨hends, hform⟩ := form_of_start horder.1 hc h
    exact ⟨hends, hform.imp horder.2.1 horder.2.2⟩

/-! ### The first rule that matches -/

theorem match?_eq_some {rule other : Rule} {text : List Char} {lexeme : Lexeme}
    (h : names.match? rule text = some (other, lexeme)) :
    other = rule ∧ names.apply rule.pattern text = some lexeme ∧ lexeme.raw ≠ [] := by
  simp only [match?, Option.map_eq_some_iff, Option.filter_eq_some_iff] at h
  obtain ⟨found, ⟨happly, hne⟩, he⟩ := h
  cases he
  exact ⟨rfl, happly, by simpa using hne⟩

theorem first?_eq_findSome? {mode : LexerMode} (hm : mode.template = false) (afterOperand : Bool)
    (text : List Char) : names.first? mode afterOperand text = Rule.table.findSome? fun rule =>
      if rule.appliesIn mode afterOperand then names.match? rule text else none := by
  rw [first?, if_neg (by simp [hm])]

/-- The first rule that matches, with what stands before it in the table. -/
theorem first?_eq_some {mode : LexerMode} (hm : mode.template = false) {afterOperand : Bool}
    {text : List Char} {rule : Rule} {lexeme : Lexeme}
    (h : names.first? mode afterOperand text = some (rule, lexeme)) :
    ∃ before behind, Rule.table = before ++ rule :: behind ∧
      rule.appliesIn mode afterOperand = true ∧ names.apply rule.pattern text = some lexeme ∧
      lexeme.raw ≠ [] ∧
      ∀ other ∈ before, other.appliesIn mode afterOperand = true → names.match? other text = none := by
  rw [first?_eq_findSome? hm, List.findSome?_eq_some_iff] at h
  obtain ⟨before, found, behind, htable, hfound, hbefore⟩ := h
  split at hfound
  · rename_i happlies
    obtain ⟨rfl, happly, hne⟩ := match?_eq_some hfound
    refine ⟨before, behind, htable, happlies, happly, hne, ?_⟩
    intro other hother htried
    simpa [htried] using hbefore other hother
  · cases hfound

theorem nameRule_mem : nameRule ∈ Rule.table := by
  obtain ⟨others, ht⟩ := Rule.table_eq
  rw [ht]
  exact List.mem_append_right _ List.mem_cons_self

theorem match?_nameRule {c : Char} {text : List Char} (hc : names.isStart c = true) :
    names.match? nameRule (c :: text) =
      some (nameRule, .whole (c :: text.takeWhile names.isPart)) := by
  have happly : names.apply nameRule.pattern (c :: text) =
      some (.whole (c :: text.takeWhile names.isPart)) := by
    change (names.name? (c :: text)).map Lexeme.whole = _
    rw [name?, if_pos hc]
    rfl
  rw [match?, happly]
  rfl

theorem first?_whole_name {mode : LexerMode} {afterOperand : Bool} {c : Char} {text : List Char}
    {rule : Rule} {lexeme : Lexeme} (hm : mode.template = false) (hc : names.isStart c = true)
    (h : names.first? mode afterOperand (c :: text) = some (rule, lexeme)) :
    c :: text.takeWhile names.isPart <+: lexeme.raw := by
  obtain ⟨before, behind, htable, -, happly, hne, -⟩ := first?_eq_some hm h
  have hrule : rule ∈ Rule.table := by simp [htable]
  exact (apply_of_start hrule hc happly).1.holds_run hc hne

theorem first?_plain_name {mode : LexerMode} (afterOperand : Bool) {c : Char} (text : List Char)
    (hm : mode.template = false) (hc : names.isStart c = true) (hk : mode.keywords = false)
    (he : mode.expected = none) : names.first? mode afterOperand (c :: text) =
      some (nameRule, .whole (c :: text.takeWhile names.isPart)) := by
  have happlies : nameRule.appliesIn mode afterOperand = true := by
    simp [nameRule, Rule.form, Rule.appliesIn, LexerMode.looksFor, he]
  cases hfirst : names.first? mode afterOperand (c :: text) with
  | none =>
    -- the rule for names is tried and matches
    rw [first?_eq_findSome? hm, List.findSome?_eq_none_iff] at hfirst
    have hname := hfirst nameRule nameRule_mem
    rw [if_pos happlies, match?_nameRule hc] at hname
    cases hname
  | some found =>
    obtain ⟨rule, lexeme⟩ := found
    obtain ⟨before, behind, htable, htried, happly, hne, -⟩ := first?_eq_some hm hfirst
    have hrule : rule ∈ Rule.table := by simp [htable]
    rcases (apply_of_start hrule hc happly).2 with hkey | rfl
    · simp [Rule.appliesIn, hkey, hk] at htried
    · have hrun : names.match? nameRule (c :: text) = some (nameRule, lexeme) := by
        rw [match?, happly]
        simp [hne]
      rw [match?_nameRule hc] at hrun
      exact congrArg some (Option.some.inj hrun).symm

theorem afterSpelling?_isSome_iff {spelling text : List Char} :
    (afterSpelling? spelling text).isSome = true ↔ spelling <+: text := by
  constructor
  · intro h
    obtain ⟨rest, hr⟩ := Option.isSome_iff_exists.mp h
    exact ⟨rest, (eq_append_of_afterSpelling? hr).symm⟩
  · rintro ⟨rest, rfl⟩
    rw [afterSpelling?_append]
    rfl

theorem marksOf_eq {rule : Rule} {spellings : List String} (hp : rule.pattern = .punctuators spellings) :
    marksOf rule = spellings := by
  rw [marksOf, hp]

/-- A rule matches where one of its marks stands. -/
theorem match?_of_mark {rule : Rule} {spellings : List String} {mark : String} {text : List Char}
    (hrule : rule ∈ Rule.table) (hp : rule.pattern = .punctuators spellings) (hmark : mark ∈ spellings)
    (h : mark.toList <+: text) : names.match? rule text ≠ none := by
  have hstands : (spellings.find? fun word => (afterSpelling? word.toList text).isSome).isSome := by
    rw [List.find?_isSome]
    exact ⟨mark, hmark, afterSpelling?_isSome_iff.mpr h⟩
  obtain ⟨found, hfound⟩ := Option.isSome_iff_exists.mp hstands
  have happly : names.apply rule.pattern text = some (.whole found.toList) := by
    rw [hp]
    exact congrArg (Option.map fun word => Lexeme.whole word.toList) hfound
  -- a mark is never empty
  have hne : found.toList ≠ [] := by
    have horder := table_orderly.1 rule hrule
    rw [IsOrderly, hp] at horder
    intro hnil
    have hfirst := horder found (List.mem_of_find?_eq_some hfound)
    rw [hnil] at hfirst
    cases hfirst
  rw [match?, happly]
  simpa [Lexeme.raw, Lexeme.whole] using hne

/-- A longer mark would stand earlier: in a rule before the one that matched, or before the mark in
the same rule. Either would have been taken. -/
theorem first?_longest_mark {mode : LexerMode} {afterOperand : Bool} {text : List Char} {rule : Rule}
    {lexeme : Lexeme} {spellings : List String} (hm : mode.template = false)
    (h : names.first? mode afterOperand text = some (rule, lexeme))
    (hp : rule.pattern = .punctuators spellings) :
    ∃ mark ∈ spellings, mark.toList = lexeme.raw ∧
      ∀ other ∈ Rule.table, other.appliesIn mode afterOperand = true →
        ∀ longer, other.pattern = .punctuators longer → ∀ spelling ∈ longer,
          mark.toList <+: spelling.toList → spelling.toList <+: text → spelling = mark := by
  obtain ⟨before, behind, htable, -, happly, -, hbefore⟩ := first?_eq_some hm h
  rw [hp] at happly
  obtain ⟨mark, hfind, rfl⟩ := Option.map_eq_some_iff.mp happly
  have hmark : mark ∈ spellings := List.mem_of_find?_eq_some hfind
  refine ⟨mark, hmark, by simp [Lexeme.raw, Lexeme.whole], ?_⟩
  intro other hother htried longer hlonger spelling hspelling hextends hstands
  obtain ⟨hwithin, hacross⟩ := List.pairwise_flatMap.mp table_orderly.2
  have hmem : other ∈ before ++ rule :: behind := htable ▸ hother
  rcases List.mem_append.mp hmem with hearlier | hrest
  · have hnone := hbefore other hearlier htried
    exact absurd hnone (match?_of_mark hother hlonger hspelling hstands)
  · rcases List.mem_cons.mp hrest with rfl | hlater
    · obtain rfl : spellings = longer := by
        rw [← marksOf_eq hp, ← marksOf_eq hlonger]
      obtain ⟨-, front, back, hlist, hfront⟩ := List.find?_eq_some_iff_append.mp hfind
      have hpair : spellings.Pairwise fun mark later => ¬ mark.toList <+: later.toList := by
        rw [← marksOf_eq hp]
        exact hwithin other hother
      rw [hlist] at hspelling hpair
      rcases List.mem_append.mp hspelling with hearlier | hrest
      · have hmisses := hfront spelling hearlier
        rw [afterSpelling?_isSome_iff.mpr hstands] at hmisses
        cases hmisses
      · rcases List.mem_cons.mp hrest with rfl | hlater
        · rfl
        · have htail := (List.pairwise_append.mp hpair).2.1
          exact absurd hextends (List.rel_of_pairwise_cons htail hlater)
    · rw [htable] at hacross
      have htail := (List.pairwise_append.mp hacross).2.1
      have hno := List.rel_of_pairwise_cons htail hlater
      rw [marksOf_eq hp, marksOf_eq hlonger] at hno
      exact absurd hextends (hno mark hmark spelling hspelling)

/-- The order of the table is that of the longest match. -/
theorem maximalMunch (names : NameTables) :
    MaximalMunch names.isStart names.isPart names.first? where
  whole_name _ _ _ _ _ _ hm hc h := first?_whole_name hm hc h
  plain_name _ afterOperand _ text hm hc hk he := first?_plain_name afterOperand text hm hc hk he
  longest_mark _ _ _ _ _ _ hm h hp := first?_longest_mark hm h hp

end NameTables

/-- The first rule that matches takes as much as it can: whatever the tables answer for characters
beyond ASCII, and so with the tables of the lexer. -/
theorem first?_maximal :
    (∀ names : NameTables, MaximalMunch names.isStart names.isPart names.first?) ∧
      MaximalMunch isNameStart isNamePart Rule.first? := by
  refine ⟨NameTables.maximalMunch, ?_⟩
  have hfirst : NameTables.unicode.first? = Rule.first? := by
    funext mode afterOperand text
    exact NameTables.first?_unicode mode afterOperand text
  rw [← hfirst]
  exact NameTables.unicode.maximalMunch

/-- No keyword is taken out of a longer name. -/
theorem first?_maximal_forms :
    Rule.first? .default false "forms (x)".toList =
        some (.form .identifierName .identifier, .whole "forms".toList) ∧
      "forms".toList <+: (Lexeme.whole "forms".toList).raw := by
  have hfirst : Rule.first? .default false "forms (x)".toList =
      some (.form .identifierName .identifier, .whole "forms".toList) := by
    change Rule.first? .default false ('f' :: "orms (x)".toList) = _
    exact Rule.first?_of_startingWith rfl (Rule.startingWith_of_lookup rfl) rfl
  exact ⟨hfirst, first?_maximal.2.whole_name .default false 'f' "orms (x)".toList _ _ rfl
    (by decide) hfirst⟩

end ScriptTree
