import Mathlib.Data.List.TakeWhile
import ScriptTree.Proofs.Symbols

/-!
Names: where a name that is no keyword stands before something that does not go on with it, the name
is what is read.
-/

namespace ScriptTree

/-- A text that is one name. -/
def IsName (name : List Char) : Prop := Scan.name? name = some name

instance (name : List Char) : Decidable (IsName name) := inferInstanceAs (Decidable (_ = _))

theorem isName_cons_iff {c : Char} {name : List Char} :
    IsName (c :: name) ↔ isNameStart c = true ∧ ∀ d ∈ name, isNamePart d = true := by
  simp only [IsName, Scan.name?]
  by_cases hc : isNameStart c = true
  · simp [hc, List.takeWhile_eq_self_iff]
  · simp [hc]

theorem isNamePart_of_isNameStart {c : Char} (h : isNameStart c = true) : isNamePart c = true := by
  simp only [isNameStart, isNamePart, isWideNameStart, isWideNamePart, Char.isAlphanum,
    Bool.or_eq_true, Bool.and_eq_true] at h ⊢
  rcases h with ((h | h) | h) | h
  · exact Or.inl (Or.inl (Or.inl h))
  · exact Or.inl (Or.inl (Or.inr h))
  · exact Or.inl (Or.inr (Or.inl h))
  · exact Or.inr ⟨h.1, Or.inl h.2⟩

theorem IsName.part {name : List Char} (h : IsName name) : ∀ c ∈ name, isNamePart c = true := by
  cases name with
  | nil => exact fun c hc => absurd hc List.not_mem_nil
  | cons c name =>
    rw [isName_cons_iff] at h
    intro d hd
    rcases List.mem_cons.mp hd with rfl | hd
    · exact isNamePart_of_isNameStart h.1
    · exact h.2 d hd

theorem afterSpelling?_name {word name rest following : List Char}
    (hw : word.all isNamePart = true) (hb : atBoundary rest = true)
    (h : afterSpelling? word (name ++ rest) = some following) :
    ∃ end_, name = word ++ end_ ∧ following = end_ ++ rest := by
  induction word generalizing name with
  | nil =>
    rw [afterSpelling?] at h
    exact ⟨name, rfl, (Option.some.inj h).symm⟩
  | cons s word ih =>
    obtain ⟨hs, hword⟩ := Bool.and_eq_true_iff.mp hw
    cases name with
    | nil =>
      -- the name has ended, and no character of the word can stand at a boundary
      cases rest with
      | nil => simp [afterSpelling?] at h
      | cons c rest =>
        have hc : s ≠ c := by rintro rfl; simp [atBoundary, hs] at hb
        simp [afterSpelling?, hc] at h
    | cons c name =>
      rw [List.cons_append, afterSpelling?] at h
      split at h
      · rename_i hc
        obtain ⟨end_, hn, hf⟩ := ih hword h
        exact ⟨end_, by rw [hc, hn]; rfl, hf⟩
      · cases h

theorem afterWord?_name {word name rest : List Char} (hw : word.all isNamePart = true)
    (hn : ∀ c ∈ name, isNamePart c = true) (hb : atBoundary rest = true) (h : name ≠ word) :
    afterWord? word (name ++ rest) = none := by
  rw [afterWord?, Option.filter_eq_none_iff]
  intro following hf
  obtain ⟨end_, rfl, rfl⟩ := afterSpelling?_name hw hb hf
  cases end_ with
  | nil => simp at h
  | cons c end_ => simp [atBoundary, hn c (by simp)]

/-- The words that a lexical form is made of. -/
def LexicalForm.keywords : LexicalForm → List String
  | .functionHead => ["async", "function"]
  | .yieldHead => ["yield"]
  | .forHead => ["for"]
  | .relationalWord => ["instanceof", "in", "of"]
  | .continueJump => ["continue"]
  | .breakJump => ["break"]
  | .importWord => ["as", "from"]
  | .exportDefault => ["export", "default"]
  | _ => []

/-- The words that a pattern is made of. -/
def Pattern.keywords : Pattern → List String
  | .words spellings => spellings
  | .punctuators _ => []
  | .form lexical => lexical.keywords

/-- The words of the keyword rules. -/
def keywords : List String :=
  Rule.table.flatMap fun rule => if rule.keyword then rule.pattern.keywords else []

/-- A name that is none of the words of the keyword rules. -/
structure IsPlainName (name : List Char) : Prop where
  isName : IsName name
  fresh : String.ofList name ∉ keywords

instance (name : List Char) : Decidable (IsPlainName name) :=
  decidable_of_iff (IsName name ∧ String.ofList name ∉ keywords)
    ⟨fun h => ⟨h.1, h.2⟩, fun h => ⟨h.isName, h.fresh⟩⟩

/-- Lexical forms of keyword rules that stand for a whole word, or for the start of a longer form
with such a word in front. -/
def LexicalForm.isWordForm : LexicalForm → Bool
  | .forHead | .relationalWord | .continueJump | .breakJump | .importWord | .exportDefault => true
  | _ => false

/-- Keyword rules other than the two that look for a star. -/
def Pattern.isWordPattern : Pattern → Bool
  | .words _ => true
  | .punctuators _ => false
  | .form lexical => lexical.isWordForm

/-- Whether a pattern might start with a name. -/
def Pattern.startsName : Pattern → Bool
  | .words spellings | .punctuators spellings =>
    spellings.any fun spelling => spelling.toList.head?.all isNameStart
  | .form lexical => match lexical with
    | .blockComment | .lineComment | .regex | .number => false
    | _ => true

theorem isAlpha_iff {c : Char} : c.isAlpha = true ↔
    65 ≤ c.toNat ∧ c.toNat ≤ 90 ∨ 97 ≤ c.toNat ∧ c.toNat ≤ 122 := by
  have hranges : c.isAlpha = (decide (65 ≤ c.val ∧ c.val ≤ 90) ||
      decide (97 ≤ c.val) && decide (c.val ≤ 122)) := rfl
  simp only [hranges, Bool.or_eq_true, Bool.and_eq_true, decide_eq_true_eq]
  exact Iff.rfl

theorem not_isDigit_of_isNameStart {c : Char} (h : isNameStart c = true) : c.isDigit = false := by
  rw [Bool.eq_false_iff]
  intro hd
  have hn := isDigit_iff.mp hd
  simp only [isNameStart, isWideNameStart, isAlpha_iff, Bool.or_eq_true, beq_iff_eq,
    Bool.and_eq_true, decide_eq_true_eq] at h
  rcases h with ((rfl | rfl) | h | h) | h
  · exact absurd hn (by decide)
  · exact absurd hn (by decide)
  · omega
  · omega
  · omega

theorem ne_of_isNameStart {c d : Char} (h : isNameStart c = true) (hd : isNameStart d = false) :
    c ≠ d := by
  rintro rfl
  rw [h] at hd
  cases hd

/-- Where white space beyond ASCII lies: between the characters that start names. -/
def spaceGaps : List CodeRange :=
  [(0xA0, 0xA0), (0x1680, 0x1680), (0x2000, 0x205F), (0x3000, 0x3000), (0xFEFF, 0xFEFF)]

theorem code_of_isSpace {c : Char} (h : isSpace c = true) :
    c.toNat ≤ 0x20 ∨ 0x7F < c.toNat ∧ ∃ gap ∈ spaceGaps, gap.1 ≤ c.toNat ∧ c.toNat ≤ gap.2 := by
  simp only [isSpace, isInlineSpace, isLineBreak, Bool.or_eq_true, beq_iff_eq, Bool.and_eq_true,
    decide_eq_true_eq] at h
  rcases h with (((((((((((((rfl | rfl) | rfl) | rfl) | rfl) | rfl) | hr) | rfl) | rfl) | rfl) | rfl) |
    rfl) | rfl)) | (((rfl | rfl) | rfl) | rfl)
  case inl.inl.inl.inl.inl.inl.inl.inr =>
    have hl : 0x2000 ≤ c.toNat := hr.1
    have hu : c.toNat ≤ 0x200a := hr.2
    exact Or.inr ⟨by omega, (0x2000, 0x205F), by decide, hl, by dsimp only; omega⟩
  all_goals decide

theorem isWideNameStart_of_gap {c : Char} {gap : CodeRange} (hg : gap ∈ spaceGaps)
    (hl : gap.1 ≤ c.toNat) (hu : c.toNat ≤ gap.2) : isWideNameStart c = false := by
  have hapart : (spaceGaps.all fun gap => nameStartRanges.all fun range =>
      Nat.blt range.2 gap.1 || Nat.blt gap.2 range.1) = true := by
    decide +kernel
  rw [isWideNameStart, inRanges, Bool.and_eq_false_iff, List.any_eq_false]
  refine Or.inr fun range hr => ?_
  have := List.all_eq_true.mp (List.all_eq_true.mp hapart gap hg) range hr
  simp only [Bool.or_eq_true, Nat.blt_eq] at this
  simp only [Bool.and_eq_true, decide_eq_true_eq]
  omega

/-- No white space starts a name, though some may continue one. -/
theorem isSpace_of_isNameStart {c : Char} (h : isNameStart c = true) : isSpace c = false := by
  rw [Bool.eq_false_iff]
  intro hs
  have hcode := code_of_isSpace hs
  simp only [isNameStart, Bool.or_eq_true, beq_iff_eq] at h
  rcases h with ((rfl | rfl) | ha) | hw
  · exact absurd hs (by decide)
  · exact absurd hs (by decide)
  · rw [isAlpha_iff] at ha
    omega
  · rcases hcode with hc | ⟨-, gap, hg, hl, hu⟩
    · rw [isWideNameStart, Bool.and_eq_true, decide_eq_true_eq] at hw
      omega
    · rw [isWideNameStart_of_gap hg hl hu] at hw
      cases hw

theorem IsName.head_not_space {name : List Char} (h : IsName name) (rest : List Char) :
    ∀ c ∈ (name ++ rest).head?, isSpace c = false := by
  cases name with
  | nil => cases h
  | cons c name =>
    rintro d ⟨⟩
    exact isSpace_of_isNameStart (isName_cons_iff.mp h).1

theorem canStart_eq_false {pattern : Pattern} (h : pattern.startsName = false) {c : Char}
    (hc : isNameStart c = true) : pattern.canStart c = false := by
  cases pattern with
  | words spellings | punctuators spellings =>
    simp only [Pattern.startsName, List.any_eq_false, Bool.not_eq_true] at h
    simp only [Pattern.canStart, List.any_eq_false, Bool.not_eq_true]
    intro spelling hs
    have hh := h spelling hs
    cases hl : spelling.toList with
    | nil => simp [hl] at hh
    | cons d tail =>
      rw [hl] at hh
      have hd : isNameStart d = false := by simpa using hh
      simpa using Ne.symm (ne_of_isNameStart hc hd)
  | form lexical =>
    cases lexical <;> simp only [Pattern.startsName, reduceCtorEq] at h
    case number =>
      simp only [Pattern.canStart, LexicalForm.canStart, not_isDigit_of_isNameStart hc,
        Bool.false_or, beq_eq_false_iff_ne]
      exact ne_of_isNameStart hc (by decide)
    all_goals
      simp only [Pattern.canStart, LexicalForm.canStart, beq_eq_false_iff_ne]
      exact ne_of_isNameStart hc (by decide)

theorem wordBeforeSpace_name {words : List (List Char)} {name rest : List Char}
    (h : ∀ word ∈ words, afterWord? word (name ++ rest) = none) :
    Scan.wordBeforeSpace words (name ++ rest) = none := by
  rw [Scan.wordBeforeSpace, List.findSome?_eq_none_iff]
  intro word hw
  rw [h word hw]

theorem LexicalForm.match?_name {lexical : LexicalForm} (hl : lexical.isWordForm = true)
    {name rest : List Char} (h : ∀ word ∈ lexical.keywords,
      afterWord? word.toList (name ++ rest) = none) : lexical.match? (name ++ rest) = none := by
  cases lexical <;> simp only [isWordForm, Bool.false_eq_true] at hl
  case forHead =>
    have hw : afterWord? Scan.forWord (name ++ rest) = none := h "for" (by simp [keywords])
    simp only [match?, Scan.forHead, Scan.forWords?, hw]
    rfl
  case relationalWord =>
    refine wordBeforeSpace_name fun word hw => ?_
    simp only [List.mem_cons, List.not_mem_nil, or_false] at hw
    rcases hw with rfl | rfl | rfl
    · exact h "instanceof" (by simp [keywords])
    · exact h "in" (by simp [keywords])
    · exact h "of" (by simp [keywords])
  case continueJump =>
    have hw : afterWord? Scan.continueWord (name ++ rest) = none :=
      h "continue" (by simp [keywords])
    simp only [match?, Scan.jump, hw]
    rfl
  case breakJump =>
    have hw : afterWord? Scan.breakWord (name ++ rest) = none := h "break" (by simp [keywords])
    simp only [match?, Scan.jump, hw]
    rfl
  case importWord =>
    refine wordBeforeSpace_name fun word hw => ?_
    simp only [List.mem_cons, List.not_mem_nil, or_false] at hw
    rcases hw with rfl | rfl
    · exact h "as" (by simp [keywords])
    · exact h "from" (by simp [keywords])
  case exportDefault =>
    have hw : afterWord? Scan.exportWord (name ++ rest) = none := h "export" (by simp [keywords])
    simp only [match?, Scan.exportDefault, hw]
    rfl

theorem Pattern.apply_name {pattern : Pattern} (hp : pattern.isWordPattern = true)
    {name rest : List Char} (h : ∀ word ∈ pattern.keywords,
      afterWord? word.toList (name ++ rest) = none) : pattern.apply (name ++ rest) = none := by
  cases pattern with
  | words spellings =>
    rw [apply, Option.map_eq_none_iff, List.find?_eq_none]
    intro word hw
    simp [h word hw]
  | punctuators spellings => cases hp
  | form lexical => exact lexical.match?_name hp h

namespace Rule

/-- The rules that are tried before the one for names. -/
def beforeNames : List Rule := table.take 49

theorem table_eq : ∃ others,
    table = beforeNames ++ form .identifierName .identifier :: others := ⟨table.drop 50, rfl⟩

/-- A keyword rule for words: two forms look for a star behind the word, and all others stand for whole
words, which are operators or keywords by their kind. -/
structure IsWordRule (rule : Rule) : Prop where
  keyword : rule.keyword = true
  pattern : rule.pattern = .form .functionHead ∨ rule.pattern = .form .yieldHead ∨
    rule.pattern.isWordPattern = true ∧ ∀ word ∈ rule.pattern.keywords,
      word.toList.all isNamePart = true ∧
        (word ∈ LexicalForm.relationalWord.keywords → rule.pattern = .form .relationalWord)
  kind : rule.kind.isTrivia = false ∧ (rule.kind.isKeyword = true ∨ rule.kind = .operator ∧
    rule.pattern.spellings ≠ [] ∧
      ∀ spelling ∈ rule.pattern.spellings, spelling.toList.all Char.isAlpha = true)

instance (rule : Rule) : Decidable rule.IsWordRule :=
  decidable_of_iff (rule.keyword = true ∧ (_ ∨ _ ∨ _ ∧ ∀ word ∈ rule.pattern.keywords, _) ∧
      (_ ∧ (_ ∨ _ ∧ _ ∧ ∀ spelling ∈ rule.pattern.spellings, _)))
    ⟨fun h => ⟨h.1, h.2.1, h.2.2⟩, fun h => ⟨h.keyword, h.pattern, h.kind⟩⟩

/-- Before the rule for names come the rules for words, and rules that no name starts with. -/
theorem beforeNames_cases : ∀ rule ∈ beforeNames,
    rule.pattern.startsName = false ∨ rule.IsWordRule := by
  decide

theorem IsWordRule.mem_keywords {rule : Rule} (h : rule.IsWordRule) (hr : rule ∈ beforeNames)
    {word : String} (hw : word ∈ rule.pattern.keywords) : word ∈ ScriptTree.keywords :=
  List.mem_flatMap.mpr ⟨rule, List.mem_of_mem_take hr, by rwa [if_pos h.keyword]⟩

end Rule

theorem name?_append {name rest : List Char} (h : IsName name) (hb : atBoundary rest = true) :
    Scan.name? (name ++ rest) = some name := by
  cases name with
  | nil => cases h
  | cons c name =>
    obtain ⟨hc, hn⟩ := isName_cons_iff.mp h
    have hr : rest.takeWhile isNamePart = [] := by
      cases rest with
      | nil => rfl
      | cons d rest =>
        have hd : ¬isNamePart d = true := by simpa [atBoundary] using hb
        exact List.takeWhile_cons_of_neg hd
    rw [List.cons_append, Scan.name?, if_pos hc, List.takeWhile_append_of_pos hn, hr,
      List.append_nil]

theorem no_symbol_of_isName {name rest : List Char} {rule : Rule} (h : IsName name)
    (hs : rule.pattern.startsName = false) : rule.match? (name ++ rest) = none := by
  cases name with
  | nil => cases h
  | cons c name =>
    exact Rule.match?_eq_none _ (canStart_eq_false hs (isName_cons_iff.mp h).1)

theorem begins_of_beforeNames {mode : LexerMode} (hm : mode = .default ∨ mode = .names)
    {name rest : List Char} {afterOperand : Bool} (h : IsName name) (hb : atBoundary rest = true)
    (hn : ∀ rule ∈ Rule.beforeNames,
      rule.appliesIn mode afterOperand = true → rule.match? (name ++ rest) = none) :
    Begins mode afterOperand .identifierName none name rest := by
  obtain ⟨others, ht⟩ := Rule.table_eq
  refine ⟨.form .identifierName .identifier, ?_, rfl, rfl⟩
  have hi : Rule.match? (.form .identifierName .identifier) (name ++ rest) =
      some (.form .identifierName .identifier, .whole name) := by
    cases name with
    | nil => cases h
    | cons c name =>
      have hi : Scan.name? (c :: (name ++ rest)) = some (c :: name) := name?_append h hb
      simp [Rule.match?, Rule.form, Pattern.apply, LexicalForm.match?, Scan.identifier, hi,
        Lexeme.whole, Lexeme.raw]
  have ha : (Rule.form .identifierName .identifier).appliesIn mode afterOperand = true := by
    rcases hm with rfl | rfl <;> cases afterOperand <;> rfl
  -- the rules before the one for names are passed over, and that one matches
  have hnone : (Rule.beforeNames.findSome? fun rule =>
      if rule.appliesIn mode afterOperand then rule.match? (name ++ rest) else none) = none := by
    rw [List.findSome?_eq_none_iff]
    intro rule hr
    split
    · rename_i hap
      exact hn rule hr hap
    · rfl
  have hmt : ¬mode.template = true := by rcases hm with rfl | rfl <;> exact Bool.false_ne_true
  rw [Rule.first?, if_neg hmt, ht, List.findSome?_append, hnone, Option.none_or,
    List.findSome?_cons, if_pos ha, hi]

/-- A star follows, behind white space if there is any. -/
def StarFollows (text : List Char) : Prop := (afterSpace text).head? = some '*'

instance (text : List Char) : Decidable (StarFollows text) := inferInstanceAs (Decidable (_ = _))

/-- White space, at least one character of it. -/
structure IsGap (gap : List Char) : Prop where
  nonempty : gap ≠ []
  space : ∀ c ∈ gap, isSpace c = true

/-- The names that are not read as such before a text. A name can hold characters that also count as
white space. If such characters stand between a keyword and what the keyword looks for, the keyword
is read in spite of the longer name. -/
inductive Misread (rest : List Char) : List Char → Prop
  /-- `yield` before a star. -/
  | yield {gap : List Char} : IsGap gap → StarFollows rest → Misread rest (Scan.yieldWord ++ gap)
  /-- `function` before a star. -/
  | function {gap : List Char} : IsGap gap → StarFollows rest →
    Misread rest (Scan.functionWord ++ gap)
  /-- `async function`, with or without a star. -/
  | async {gap : List Char} : IsGap gap → Misread rest (Scan.asyncWord ++ gap ++ Scan.functionWord)
  /-- `async function` before a star, with more white space in the name. -/
  | asyncStar {gap gap' : List Char} : IsGap gap → IsGap gap' → StarFollows rest →
    Misread rest (Scan.asyncWord ++ gap ++ (Scan.functionWord ++ gap'))

theorem dropWhile_isSpace_eq {name : List Char} (h : ¬∀ c ∈ name, isSpace c = true) :
    ∃ c end_, name.dropWhile isSpace = c :: end_ ∧ isSpace c = false := by
  induction name with
  | nil => simp at h
  | cons d name ih =>
    by_cases hd : isSpace d = true
    · rw [List.dropWhile_cons_of_pos hd]
      refine ih fun hn => h fun c hc => ?_
      rcases List.mem_cons.mp hc with rfl | hc
      · exact hd
      · exact hn c hc
    · exact ⟨d, name, List.dropWhile_cons_of_neg hd, by simpa using hd⟩

/-- Behind the word of a generator form a name goes on, unless the rest of it counts as white space
and a star follows. -/
theorem starOrBoundary?_name {end_ rest : List Char} (he : end_ ≠ [])
    (hp : ∀ c ∈ end_, isNamePart c = true)
    (h : ¬((∀ c ∈ end_, isSpace c = true) ∧ StarFollows rest)) :
    Scan.starOrBoundary? (end_ ++ rest) = none := by
  -- neither of the two things the form looks for is there: no boundary, and no star
  have hb : ¬atBoundary (end_ ++ rest) = true := by
    cases end_ with
    | nil => exact absurd rfl he
    | cons c end_ => simp [atBoundary, hp c List.mem_cons_self]
  have hs : (afterSpace (end_ ++ rest)).head? ≠ some '*' := by
    by_cases hall : ∀ c ∈ end_, isSpace c = true
    · rw [afterSpace, List.dropWhile_append_of_pos hall]
      exact fun hr => h ⟨hall, hr⟩
    · obtain ⟨c, tail, hd, -⟩ := dropWhile_isSpace_eq hall
      have hc : c ∈ end_ := (List.dropWhile_subset isSpace) (hd ▸ List.mem_cons_self)
      have hne : c ≠ '*' := by
        rintro rfl
        exact absurd (hp _ hc) (by decide)
      rw [afterSpace, List.dropWhile_append, hd]
      simpa using hne
  unfold Scan.starOrBoundary?
  split
  · rename_i heq
    exact absurd (by rw [heq]; rfl) hs
  · rw [if_neg hb]

theorem yieldHead_name {name rest : List Char} (hn : ∀ c ∈ name, isNamePart c = true)
    (hb : atBoundary rest = true) (hy : name ≠ Scan.yieldWord) (h : ¬Misread rest name) :
    Scan.yieldHead (name ++ rest) = none := by
  unfold Scan.yieldHead
  cases hf : afterSpelling? Scan.yieldWord (name ++ rest) with
  | none => rfl
  | some following =>
    obtain ⟨end_, rfl, rfl⟩ := afterSpelling?_name (by decide) hb hf
    have he : end_ ≠ [] := by rintro rfl; exact hy (List.append_nil _)
    have hs : Scan.starOrBoundary? (end_ ++ rest) = none :=
      starOrBoundary?_name he (fun c hc => hn c (List.mem_append_right _ hc))
        fun hg => h (.yield ⟨he, hg.1⟩ hg.2)
    simp only [Option.bind_eq_bind, Option.bind_some, hs, Option.bind_none]

theorem plainFunction?_name {name rest : List Char} (hn : ∀ c ∈ name, isNamePart c = true)
    (hb : atBoundary rest = true) (hf : name ≠ Scan.functionWord)
    (h : ∀ gap, name = Scan.functionWord ++ gap → IsGap gap → ¬StarFollows rest) :
    Scan.plainFunction? (name ++ rest) = none := by
  unfold Scan.plainFunction?
  cases ha : afterSpelling? Scan.functionWord (name ++ rest) with
  | none => rfl
  | some following =>
    obtain ⟨end_, rfl, rfl⟩ := afterSpelling?_name (by decide) hb ha
    have he : end_ ≠ [] := by rintro rfl; exact hf (List.append_nil _)
    have hs : Scan.starOrBoundary? (end_ ++ rest) = none :=
      starOrBoundary?_name he (fun c hc => hn c (List.mem_append_right _ hc))
        fun hg => h end_ rfl ⟨he, hg.1⟩ hg.2
    simp only [Option.bind_eq_bind, Option.bind_some, hs, Option.bind_none]

theorem functionHead_name {name rest : List Char} (hn : ∀ c ∈ name, isNamePart c = true)
    (hb : atBoundary rest = true) (hf : name ≠ Scan.functionWord) (ha : name ≠ Scan.asyncWord)
    (hr : ∀ gap, name = Scan.asyncWord ++ gap → IsGap gap →
      afterSpelling? Scan.functionWord (afterSpace rest) = none)
    (h : ¬Misread rest name) : Scan.functionHead (name ++ rest) = none := by
  unfold Scan.functionHead
  cases hs : afterSpelling? Scan.asyncWord (name ++ rest) with
  | none =>
    have hp : Scan.plainFunction? (name ++ rest) = none :=
      plainFunction?_name hn hb hf fun gap he hg hstar => h (he ▸ .function hg hstar)
    rw [hp]
    rfl
  | some following =>
    obtain ⟨end_, rfl, rfl⟩ := afterSpelling?_name (by decide) hb hs
    have he : end_ ≠ [] := by rintro rfl; exact ha (List.append_nil _)
    dsimp only
    split
    · rfl
    · rename_i hl
      suffices hp : Scan.plainFunction? (afterSpace (end_ ++ rest)) = none by rw [hp]; rfl
      -- behind `async`, the word `function` would stand in the rest of the name or behind it
      by_cases hall : ∀ c ∈ end_, isSpace c = true
      · rw [afterSpace, List.dropWhile_append_of_pos hall, ← afterSpace, Scan.plainFunction?,
          hr end_ rfl ⟨he, hall⟩]
        rfl
      · obtain ⟨c, tail, hd, hc⟩ := dropWhile_isSpace_eq hall
        have hsplit : end_ = end_.takeWhile isSpace ++ c :: tail := by
          rw [← hd, List.takeWhile_append_dropWhile]
        have hg : IsGap (end_.takeWhile isSpace) := by
          refine ⟨fun h0 => ?_, fun d hd' => List.mem_takeWhile_imp hd'⟩
          -- the white space found behind the word lies in the name
          rw [h0, List.nil_append] at hsplit
          rw [hsplit] at hl
          simp [leadingSpace, hc] at hl
        have hrest : afterSpace (end_ ++ rest) = c :: tail ++ rest := by
          rw [afterSpace, List.dropWhile_append, hd]
          simp
        rw [hrest]
        refine plainFunction?_name (fun d hd' => hn d ?_) hb (fun hw => h ?_)
          fun gap hw hg' hstar => h ?_
        · rw [hsplit]
          exact List.mem_append_right _ (List.mem_append_right _ hd')
        · rw [hsplit, hw, ← List.append_assoc]
          exact .async hg
        · rw [hsplit, hw, ← List.append_assoc]
          exact .asyncStar hg hg' hstar

theorem mem_keywords : "async" ∈ keywords ∧ "function" ∈ keywords ∧ "yield" ∈ keywords := by
  decide

/-- A plain name is read as a name, unless it is one of those that white space in them and what
follows make a keyword. -/
theorem begins_name {name rest : List Char} (h : IsPlainName name) (hb : atBoundary rest = true)
    (hr : ∀ gap, name = Scan.asyncWord ++ gap → IsGap gap →
      afterSpelling? Scan.functionWord (afterSpace rest) = none)
    (hm : ¬Misread rest name) (afterOperand : Bool) :
    Begins .default afterOperand .identifierName none name rest := by
  obtain ⟨ha, hf, hy⟩ := mem_keywords
  have hfn : Scan.functionHead (name ++ rest) = none :=
    functionHead_name h.isName.part hb (by rintro rfl; exact h.fresh hf)
      (by rintro rfl; exact h.fresh ha) hr hm
  have hyn : Scan.yieldHead (name ++ rest) = none :=
    yieldHead_name h.isName.part hb (by rintro rfl; exact h.fresh hy) hm
  refine begins_of_beforeNames (Or.inl rfl) h.isName hb fun rule hrule _ => ?_
  -- a symbol, one of the two forms that look for a star, or whole words
  rcases Rule.beforeNames_cases rule hrule with hs | hcase
  · exact no_symbol_of_isName h.isName hs
  rcases hcase.pattern with he | he | ⟨hw, hk⟩
  · simp only [Rule.match?, he, Pattern.apply, LexicalForm.match?, hfn]
    rfl
  · simp only [Rule.match?, he, Pattern.apply, LexicalForm.match?, hyn]
    rfl
  · have hp : rule.pattern.apply (name ++ rest) = none := by
      refine Pattern.apply_name hw fun word hword => ?_
      refine afterWord?_name (hk word hword).1 h.isName.part hb fun he => h.fresh ?_
      rw [he, String.ofList_toList]
      exact hcase.mem_keywords hrule hword
    rw [Rule.match?, hp]
    rfl

theorem IsGap.exists_mem {gap : List Char} (h : IsGap gap) : ∃ c ∈ gap, isSpace c = true := by
  obtain ⟨c, hc⟩ := List.exists_mem_of_ne_nil gap h.nonempty
  exact ⟨c, hc, h.space c hc⟩

theorem Misread.exists_mem {rest name : List Char} (h : Misread rest name) :
    ∃ c ∈ name, isSpace c = true := by
  cases h with
  | yield hg _ | function hg _ =>
    obtain ⟨c, hc, hs⟩ := hg.exists_mem
    exact ⟨c, List.mem_append_right _ hc, hs⟩
  | async hg | asyncStar hg _ _ =>
    obtain ⟨c, hc, hs⟩ := hg.exists_mem
    exact ⟨c, List.mem_append_left _ (List.mem_append_right _ hc), hs⟩

theorem begins_solidName {name rest : List Char} (h : IsPlainName name)
    (hs : ∀ c ∈ name, isSpace c = false) (hb : atBoundary rest = true) (afterOperand : Bool) :
    Begins .default afterOperand .identifierName none name rest := by
  refine begins_name h hb (fun gap he hg => ?_) (fun hm => ?_) afterOperand
  · obtain ⟨c, hc, hsp⟩ := hg.exists_mem
    have hn := hs c (he ▸ List.mem_append_right _ hc)
    rw [hsp] at hn
    cases hn
  · obtain ⟨c, hc, hsp⟩ := hm.exists_mem
    have hn := hs c hc
    rw [hsp] at hn
    cases hn

/-- The words that are operators before white space. Before anything else they are names. -/
def relationalWords : List String := LexicalForm.relationalWord.keywords

theorem wordBeforeSpace_not_space {words : List (List Char)} {name rest : List Char}
    (hw : ∀ word ∈ words, word.all isNamePart = true) (hn : ∀ c ∈ name, isNamePart c = true)
    (hb : atBoundary rest = true) (hs : ∀ c ∈ rest.head?, isSpace c = false) :
    Scan.wordBeforeSpace words (name ++ rest) = none := by
  rw [Scan.wordBeforeSpace, List.findSome?_eq_none_iff]
  intro word hword
  cases hf : afterWord? word (name ++ rest) with
  | none => rfl
  | some following =>
    obtain ⟨hf, hbf⟩ := Option.filter_eq_some_iff.mp hf
    obtain ⟨end_, rfl, rfl⟩ := afterSpelling?_name (hw word hword) hb hf
    -- a word that is found is the whole name, so what stands behind it is no white space
    cases end_ with
    | cons c end_ => simp [atBoundary, hn c (by simp)] at hbf
    | nil => cases rest with
      | nil => rfl
      | cons c rest => simp [hs c rfl]

/-- A word that is an operator before white space is read as a name before anything else. -/
theorem begins_word {name : String} (h : name ∈ relationalWords) {rest : List Char}
    (hb : atBoundary rest = true) (hs : ∀ c ∈ rest.head?, isSpace c = false)
    (afterOperand : Bool) :
    Begins .default afterOperand .identifierName none name.toList rest := by
  have hword : IsName name.toList ∧
      (name.toList.head? = some 'i' ∨ name.toList.head? = some 'o') := by
    simp only [relationalWords, LexicalForm.keywords, List.mem_cons, List.not_mem_nil, or_false] at h
    rcases h with rfl | rfl | rfl <;> exact ⟨by decide, by decide⟩
  have hstart {rule : Rule} (hi : rule.pattern.canStart 'i' = false)
      (ho : rule.pattern.canStart 'o' = false) : rule.match? (name.toList ++ rest) = none := by
    obtain ⟨-, hc | hc⟩ := hword
    · obtain ⟨tail, ht⟩ := List.head?_eq_some_iff.mp hc
      rw [ht]
      exact Rule.match?_eq_none _ hi
    · obtain ⟨tail, ht⟩ := List.head?_eq_some_iff.mp hc
      rw [ht]
      exact Rule.match?_eq_none _ ho
  obtain ⟨hname, -⟩ := hword
  refine begins_of_beforeNames (Or.inl rfl) hname hb fun rule hr _ => ?_
  rcases Rule.beforeNames_cases rule hr with hsym | hrule
  · exact no_symbol_of_isName hname hsym
  rcases hrule.pattern with he | he | ⟨hw, hk⟩
  · exact hstart (by rw [he]; rfl) (by rw [he]; rfl)
  · exact hstart (by rw [he]; rfl) (by rw [he]; rfl)
  · have hp : rule.pattern.apply (name.toList ++ rest) = none := by
      by_cases hrel : rule.pattern = .form .relationalWord
      · rw [hrel]
        exact wordBeforeSpace_not_space (by decide) hname.part hb hs
      · refine Pattern.apply_name hw fun word hword => ?_
        refine afterWord?_name (hk word hword).1 hname.part hb fun he => ?_
        exact hrel ((hk word hword).2 (String.toList_injective he ▸ h))
    rw [Rule.match?, hp]
    rfl

/-- Where keywords are read as names, every name is read as such. -/
theorem begins_anyName {name rest : List Char} (h : IsName name) (hb : atBoundary rest = true)
    (afterOperand : Bool) : Begins .names afterOperand .identifierName none name rest := by
  refine begins_of_beforeNames (Or.inr rfl) h hb fun rule hr ha => ?_
  -- what is left of the rules before has symbols in front
  rcases Rule.beforeNames_cases rule hr with hs | hrule
  · exact no_symbol_of_isName h hs
  · simp [Rule.appliesIn, hrule.keyword, LexerMode.names] at ha

end ScriptTree
