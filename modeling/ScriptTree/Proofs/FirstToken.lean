import ScriptTree.Proofs.MisreadNames
import ScriptTree.Proofs.SpelledNodes

/-!
The first token of a text, where it opens a block or a declaration at the start of a statement: which
texts begin with such a token can be told from their first characters.
-/

namespace ScriptTree

/-- Tokens that open a block or a declaration at the start of a statement. -/
def TokenKind.startsLikeStatement : TokenKind → Bool
  | .openBrace | .functionKeyword | .classKeyword => true
  | _ => false

/-- The first token of a text opens a block or a declaration at the start of a statement. -/
def StartsLikeStatement (text : List Char) : Prop :=
  ∃ token, ((Lexer.ofText text).next .default).current = some token ∧
    token.kind.startsLikeStatement = true

theorem startsLikeStatement_of_first? {text : List Char} {rule : Rule} {lexeme : Lexeme}
    (hne : text ≠ []) (hf : Rule.first? .default false text = some (rule, lexeme))
    (ht : rule.kind.isTrivia = false) :
    StartsLikeStatement text ↔ rule.kind.startsLikeStatement = true := by
  have hfacing : ((Lexer.ofText text).next .default).Facing .default false text :=
    ⟨Lexer.ofText text, false, rfl, rfl, Lexer.next_eq_nextFrom _ _⟩
  obtain ⟨earlier, newline, -, he⟩ := hfacing.emits hne hf ht
  rw [StartsLikeStatement, he]
  simp [Lexer.emit]

theorem not_startsLikeStatement_of_first? {text : List Char}
    (hf : Rule.first? .default false text = none) : ¬StartsLikeStatement text := by
  rintro ⟨token, ht, -⟩
  have hnone : ((Lexer.ofText text).next .default).current = none := by
    unfold Lexer.next
    have hfirst : Rule.first? .default (Lexer.ofText text).afterOperand
        (Lexer.ofText text).cursor.rest = none := hf
    have hs : Lexer.seek .default (Lexer.ofText text).afterOperand
        ((Lexer.ofText text).cursor.rest.length + 1) (Lexer.ofText text).cursor false =
        if (Lexer.ofText text).cursor.rest.isEmpty then .finished (Lexer.ofText text).cursor
        else .stuck (Lexer.ofText text).cursor := by
      simp only [Lexer.seek, hfirst]
    rw [hs]
    split <;> rename_i h <;> split at h <;> cases h <;> rfl
  rw [hnone] at ht
  cases ht

namespace Rule

/-- Which rules make such tokens. -/
theorem opening_patterns : ∀ rule ∈ table, rule.kind.startsLikeStatement = true →
    rule.pattern = .punctuators ["\x7b"] ∨ rule.pattern = .words ["class"] ∨
      rule.pattern = .form .functionHead := by
  decide

/-- The word `class`. -/
def classWord : List Char := ['c', 'l', 'a', 's', 's']

theorem first?_openBrace (text : List Char) : first? .default false ('\x7b' :: text) =
    some (punctuators .openBrace ["\x7b"], .whole ['\x7b']) := by
  have hs : startingWith '\x7b' = [] ++ _ :: _ := startingWith_of_lookup rfl
  exact first?_of_match hs (fun _ hr => absurd hr List.not_mem_nil) rfl rfl

theorem first?_class {text : List Char} (h : atBoundary text = true) :
    first? .default false (classWord ++ text) =
      some (words .classKeyword ["class"], .whole classWord) := by
  have hs : startingWith 'c' = [words .declarationKeyword ["let", "const", "var"],
      keywordForm .continueKeyword .continueJump] ++ _ :: _ := startingWith_of_lookup rfl
  refine first?_of_match hs ?_ rfl ?_
  · intro other hin
    simp only [List.mem_cons, List.not_mem_nil, or_false] at hin
    rcases hin with rfl | rfl <;> rfl
  · have hw : afterWord? classWord (classWord ++ text) = some text := by
      rw [afterWord?, afterSpelling?_append, Option.filter_some, if_pos h]
    have hp : (Pattern.words ["class"]).apply (classWord ++ text) = some (.whole classWord) := by
      rw [Pattern.apply, List.find?_cons_of_pos]
      · rfl
      · change (afterWord? classWord (classWord ++ text)).isSome = true
        rw [hw]
        rfl
    change (((Pattern.words ["class"]).apply (classWord ++ text)).filter _).map _ = _
    rw [hp]
    rfl

theorem first?_functionHead {c : Char} {text : List Char} {lexeme : Lexeme}
    (h : Scan.functionHead (c :: text) = some lexeme) : first? .default false (c :: text) =
      some (keywordForm .functionKeyword .functionHead, lexeme) := by
  have hm : LexicalForm.functionHead.match? (c :: text) = some lexeme := h
  unfold Scan.functionHead at h
  split at h
  · rename_i rest hasync
    obtain ⟨rfl, -⟩ := List.cons.inj (eq_append_of_afterSpelling? hasync)
    have hs : startingWith 'a' = [] ++ _ :: _ := startingWith_of_lookup rfl
    refine first?_of_keywordForm false hs (fun _ hr => absurd hr List.not_mem_nil) hm ?_
    split at h
    · cases h
    · obtain ⟨head, -, rfl⟩ := Option.map_eq_some_iff.mp h
      simp [Lexeme.raw, Lexeme.whole, Scan.asyncWord]
  · obtain ⟨head, hplain, rfl⟩ := Option.map_eq_some_iff.mp h
    simp only [Scan.plainFunction?, Option.bind_eq_bind, Option.bind_eq_some_iff] at hplain
    obtain ⟨rest, hfunction, star, -, hhead⟩ := hplain
    obtain ⟨rfl, rfl⟩ := List.cons.inj (eq_append_of_afterSpelling? hfunction)
    have hs : startingWith 'f' = [words .booleanLiteral ["true", "false"]] ++ _ :: _ :=
      startingWith_of_lookup rfl
    refine first?_of_keywordForm false hs ?_ hm ?_
    · intro rule hr
      rw [List.mem_singleton.mp hr]
      rfl
    · rw [← Option.some.inj hhead]
      simp [Lexeme.raw, Lexeme.whole, Scan.functionWord]

end Rule

/-- A text that starts like a block or a declaration: with a brace, `class` or the head of a function. -/
def OpensText (text : List Char) : Prop :=
  text.head? = some '\x7b' ∨ (afterWord? Rule.classWord text).isSome = true ∨
    (Scan.functionHead text).isSome = true

/-- Where a text starts with neither white space nor a comment, its first token is known from its first
characters. -/
theorem startsLikeStatement_cons_iff {c : Char} {text : List Char} (hs : isSpace c = false)
    (hb : Scan.blockComment (c :: text) = none) (hl : Scan.lineComment (c :: text) = none) :
    StartsLikeStatement (c :: text) ↔ OpensText (c :: text) := by
  constructor
  · intro h
    cases hf : Rule.first? .default false (c :: text) with
    | none => exact absurd h (not_startsLikeStatement_of_first? hf)
    | some found =>
      obtain ⟨rule, lexeme⟩ := found
      obtain ⟨ha, hin⟩ := Rule.applies_of_first hf
      have hin : rule ∈ Rule.table := by
        rcases hin with ⟨ht, -⟩ | ⟨-, hin, -⟩
        · cases ht
        · exact hin
      have hnone (lexical : LexicalForm) (hc : lexical.canStart c = false) :
          lexical.match? (c :: text) ≠ some lexeme := by
        rw [lexical.match?_eq_none text hc]
        exact nofun
      have ht : rule.kind.isTrivia = false := by
        by_contra ht
        have hp := Rule.trivia_patterns rule hin (by simpa using ht)
        simp only [List.mem_cons, List.not_mem_nil, or_false] at hp
        rcases hp with hp | hp | hp | hp <;> rw [hp, Pattern.apply] at ha
        · exact absurd (hb.symm.trans ha) nofun
        · exact absurd (hl.symm.trans ha) nofun
        · exact absurd ha (hnone .inlineSpace hs)
        · exact absurd ha (hnone .space hs)
      rw [startsLikeStatement_of_first? (List.cons_ne_nil c text) hf ht] at h
      rcases Rule.opening_patterns rule hin h with hp | hp | hp <;> rw [hp] at ha
      · obtain ⟨-, rest, hr⟩ := Pattern.apply_single ha
        exact Or.inl (congrArg some (List.cons.inj hr).1)
      · obtain ⟨word, hw, -⟩ := Option.map_eq_some_iff.mp ha
        obtain rfl := List.mem_singleton.mp (List.mem_of_find?_eq_some hw)
        have hfound : (afterWord? "class".toList (c :: text)).isSome = true := by
          simpa using List.find?_some hw
        exact Or.inr (Or.inl hfound)
      · exact Or.inr (Or.inr (Option.isSome_iff_exists.mpr ⟨lexeme, ha⟩))
  · rintro (h | h | h)
    · obtain rfl := Option.some.inj h
      exact (startsLikeStatement_of_first? (List.cons_ne_nil _ _) (Rule.first?_openBrace _) rfl).mpr rfl
    · obtain ⟨rest, hr⟩ := Option.isSome_iff_exists.mp h
      have hboundary := (Option.filter_eq_some_iff.mp hr).2
      rw [eq_append_of_afterWord? hr]
      exact (startsLikeStatement_of_first? (List.cons_ne_nil _ _) (Rule.first?_class hboundary)
        rfl).mpr rfl
    · obtain ⟨lexeme, hm⟩ := Option.isSome_iff_exists.mp h
      exact (startsLikeStatement_of_first? (List.cons_ne_nil _ _) (Rule.first?_functionHead hm)
        rfl).mpr rfl

/-- No name goes on where a text starts, and none starts behind white space there. -/
def EndsName (text : List Char) : Prop :=
  atBoundary text = true ∧ atBoundary (afterSpace text) = true

instance (text : List Char) : Decidable (EndsName text) := inferInstanceAs (Decidable (_ ∧ _))

theorem endsName_nil : EndsName [] := ⟨rfl, rfl⟩

theorem EndsName.append {text rest : List Char} (h : EndsName text) (hr : EndsName rest) :
    EndsName (text ++ rest) := by
  refine ⟨?_, ?_⟩
  · cases text with
    | nil => exact hr.1
    | cons c text => exact h.1
  · rw [afterSpace, List.dropWhile_append]
    split
    · exact hr.2
    · rename_i hne
      have hb := h.2
      rw [afterSpace] at hb
      cases hd : text.dropWhile isSpace with
      | nil => simp [hd] at hne
      | cons c tail =>
        rw [hd] at hb
        exact hb

theorem endsName_of_mark {c : Char} (hs : isSpace c = false) (hn : isNamePart c = false)
    (text : List Char) : EndsName (c :: text) ∧ EndsName (' ' :: c :: text) := by
  have hc : ¬isSpace c = true := by simp [hs]
  refine ⟨⟨?_, ?_⟩, rfl, ?_⟩
  · simp [atBoundary, hn]
  · rw [afterSpace, List.dropWhile_cons_of_neg hc]
    simp [atBoundary, hn]
  · rw [afterSpace, List.dropWhile_cons_of_pos rfl, List.dropWhile_cons_of_neg hc]
    simp [atBoundary, hn]


/-- The words that such texts begin with. -/
def openingWords : List (List Char) :=
  [['\x7b'], Rule.classWord, Scan.functionWord, Scan.asyncWord]

theorem OpensText.exists_prefix {text : List Char} (h : OpensText text) :
    ∃ word ∈ openingWords, word <+: text := by
  have hplain {text : List Char} (hp : (Scan.plainFunction? text).isSome = true) :
      Scan.functionWord <+: text := by
    obtain ⟨head, hp⟩ := Option.isSome_iff_exists.mp hp
    simp only [Scan.plainFunction?, Option.bind_eq_bind, Option.bind_eq_some_iff] at hp
    obtain ⟨rest, hr, -⟩ := hp
    exact ⟨rest, (eq_append_of_afterSpelling? hr).symm⟩
  rcases h with h | h | h
  · obtain ⟨rest, rfl⟩ := List.head?_eq_some_iff.mp h
    exact ⟨_, List.mem_cons_self, ⟨rest, rfl⟩⟩
  · obtain ⟨rest, hr⟩ := Option.isSome_iff_exists.mp h
    exact ⟨Rule.classWord, by decide, ⟨rest, (eq_append_of_afterWord? hr).symm⟩⟩
  · unfold Scan.functionHead at h
    split at h
    · rename_i rest hr
      exact ⟨Scan.asyncWord, by decide, ⟨rest, (eq_append_of_afterSpelling? hr).symm⟩⟩
    · rw [Option.isSome_map] at h
      exact ⟨Scan.functionWord, by decide, hplain h⟩

/-- A text that begins with neither white space nor a line comment, and opens a block or a declaration
just if `P`. -/
structure OpensJust (P : Prop) (text : List Char) : Prop where
  nonempty : text ≠ []
  space : ∀ c ∈ text.head?, isSpace c = false
  comment : Scan.lineComment text = none
  opens : OpensText text ↔ P

theorem OpensJust.startsLikeStatement_iff {P : Prop} {text : List Char} (h : OpensJust P text)
    (hb : Scan.blockComment text = none) : StartsLikeStatement text ↔ P := by
  cases text with
  | nil => exact absurd rfl h.nonempty
  | cons c text =>
    rw [startsLikeStatement_cons_iff (h.space c rfl) hb h.comment]
    exact h.opens

theorem OpensJust.congr {P Q : Prop} {text : List Char} (h : OpensJust P text) (hp : P ↔ Q) :
    OpensJust Q text :=
  ⟨h.nonempty, h.space, h.comment, h.opens.trans hp⟩

theorem lineComment_cons {c : Char} (h : c ≠ '/') (text : List Char) :
    Scan.lineComment (c :: text) = none := by
  unfold Scan.lineComment
  split
  · rename_i ht
    exact absurd (List.cons.inj ht).1 h
  · rfl

theorem opensJust_false {c : Char} {text : List Char} (hs : isSpace c = false)
    (hl : Scan.lineComment (c :: text) = none) (hw : ∀ word ∈ openingWords, ¬word <+: c :: text) :
    OpensJust False (c :: text) := by
  refine ⟨List.cons_ne_nil c text, ?_, hl, iff_false_intro fun h => ?_⟩
  · rintro d ⟨⟩
    exact hs
  · obtain ⟨word, hin, hp⟩ := h.exists_prefix
    exact hw word hin hp

/-- Most characters tell that a text opens nothing. -/
theorem not_prefix_of_head {c : Char} (hc : c ∉ openingWords.filterMap List.head?)
    (text : List Char) : ∀ word ∈ openingWords, ¬word <+: c :: text := by
  intro word hin hp
  have hne : ∀ word ∈ openingWords, word ≠ [] := by decide
  obtain ⟨d, tail, rfl⟩ := List.exists_cons_of_ne_nil (hne word hin)
  apply hc
  rw [List.mem_filterMap]
  exact ⟨d :: tail, hin, by rw [List.head?_cons, (List.cons_prefix_cons.mp hp).1]⟩

theorem opensJust_false_of_head {c : Char} (hs : isSpace c = false)
    (hc : c ∉ '/' :: openingWords.filterMap List.head?) (text : List Char) :
    OpensJust False (c :: text) := by
  rw [List.mem_cons, not_or] at hc
  obtain ⟨hslash, hc⟩ := hc
  exact opensJust_false hs (lineComment_cons hslash text) (not_prefix_of_head hc text)

/-- The word `false` starts like `function`, but is another word. -/
theorem opensJust_falseWord (text : List Char) :
    OpensJust False ('f' :: 'a' :: 'l' :: 's' :: 'e' :: text) := by
  apply opensJust_false rfl (lineComment_cons (by decide) _)
  intro word hin hp
  simp only [openingWords, List.mem_cons, List.not_mem_nil, or_false] at hin
  rcases hin with rfl | rfl | rfl | rfl <;>
    simp [List.cons_prefix_cons, Rule.classWord, Scan.functionWord, Scan.asyncWord] at hp

/-- A number opens nothing. -/
theorem opensJust_false_of_number {raw : List Char}
    (h : raw.head?.any (LexicalForm.canStart · .number) = true) (rest : List Char) :
    OpensJust False (raw ++ rest) := by
  cases raw with
  | nil => cases h
  | cons c raw =>
    have hc : c.isDigit = true ∨ c = '.' := by simpa [LexicalForm.canStart] using h
    rcases hc with hd | rfl
    · have hn := isDigit_iff.mp hd
      have hall : ∀ i < 10, isSpace (Char.ofNat (48 + i)) = false ∧
          Char.ofNat (48 + i) ∉ '/' :: openingWords.filterMap List.head? := by decide
      have hdigit := hall (c.toNat - 48) (by omega)
      rw [Nat.add_sub_cancel' hn.1, Char.ofNat_toNat] at hdigit
      exact opensJust_false_of_head hdigit.1 hdigit.2 _
    · exact opensJust_false_of_head rfl (by decide) _

/-- A regular expression opens nothing. -/
theorem opensJust_false_of_opensRegex {source : List Char} (h : opensRegex source = true)
    (rest : List Char) : OpensJust False (source ++ rest) := by
  unfold opensRegex at h
  split at h
  · rename_i c text
    have hc : c ≠ '/' := by simpa using h
    apply opensJust_false rfl
    · unfold Scan.lineComment
      split
      · rename_i ht
        exact absurd (List.cons.inj (List.cons.inj ht).2).1 hc
      · rfl
    · exact not_prefix_of_head (by decide) _
  · cases h

theorem opensJust_openBrace (text : List Char) : OpensJust True ('\x7b' :: text) := by
  refine ⟨List.cons_ne_nil _ text, ?_, lineComment_cons (by decide) text, iff_true_intro ?_⟩
  · rintro d ⟨⟩
    rfl
  · exact Or.inl rfl

theorem opensJust_class {text : List Char} (h : atBoundary text = true) :
    OpensJust True (Rule.classWord ++ text) := by
  refine ⟨List.cons_ne_nil _ _, ?_, lineComment_cons (by decide) _, iff_true_intro ?_⟩
  · rintro d ⟨⟩
    rfl
  · refine Or.inr (Or.inl ?_)
    rw [afterWord?, afterSpelling?_append, Option.filter_some, if_pos h]
    rfl

theorem opensJust_function {text : List Char} (h : StarFollows text ∨ atBoundary text = true) :
    OpensJust True (Scan.functionWord ++ text) := by
  refine ⟨List.cons_ne_nil _ _, ?_, lineComment_cons (by decide) _, iff_true_intro ?_⟩
  · rintro d ⟨⟩
    rfl
  · obtain ⟨head, hp⟩ := plainFunction?_eq_some h
    have ha : afterSpelling? Scan.asyncWord (Scan.functionWord ++ text) = none := rfl
    refine Or.inr (Or.inr ?_)
    simp only [Scan.functionHead, ha, hp, Option.map_some, Option.isSome_some]

theorem opensJust_async {gap text : List Char} (hg : IsGap gap)
    (h : StarFollows text ∨ atBoundary text = true) :
    OpensJust True (Scan.asyncWord ++ (gap ++ (Scan.functionWord ++ text))) := by
  refine ⟨List.cons_ne_nil _ _, ?_, lineComment_cons (by decide) _, iff_true_intro ?_⟩
  · rintro d ⟨⟩
    rfl
  · obtain ⟨head, hp⟩ := functionHead_async hg h
    exact Or.inr (Or.inr (Option.isSome_iff_exists.mpr ⟨_, hp⟩))

theorem not_opensText_yield (text : List Char) : ¬OpensText (Scan.yieldWord ++ text) :=
  (opensJust_false_of_head (show isSpace 'y' = false from rfl) (by decide) _).opens.mp

theorem Misread.opensText {name rest : List Char} (h : Misread rest name)
    (hb : atBoundary rest = true) (hy : ¬Scan.yieldWord <+: name) : OpensText (name ++ rest) := by
  cases h with
  | yield => exact absurd (List.prefix_append _ _) hy
  | function hg hs =>
    rw [List.append_assoc]
    exact (opensJust_function (Or.inl (hg.starFollows hs))).opens.mpr trivial
  | async hg =>
    rw [List.append_assoc, List.append_assoc]
    exact (opensJust_async hg (Or.inr hb)).opens.mpr trivial
  | asyncStar hg hg' hs =>
    rw [List.append_assoc, List.append_assoc, List.append_assoc]
    exact (opensJust_async hg (Or.inl (hg'.starFollows hs))).opens.mpr trivial

/-- Where a name that is no keyword ends, the text opens a function if the name is misread as one. -/
theorem opensJust_name {name rest : List Char} (hn : IsPlainName name) (he : EndsName rest) :
    OpensJust (Misread rest name ∧ ¬Scan.yieldWord <+: name) (name ++ rest) := by
  obtain ⟨c, tail, rfl⟩ : ∃ c tail, name = c :: tail := by
    cases name with
    | nil => cases hn.isName
    | cons c tail => exact ⟨c, tail, rfl⟩
  have hc := (isName_cons_iff.mp hn.isName).1
  refine ⟨List.cons_ne_nil _ _, hn.isName.head_not_space rest,
    lineComment_cons (ne_of_isNameStart hc (by decide)) _, fun h => ⟨?_, ?_⟩,
    fun h => h.1.opensText he.1 h.2⟩
  · obtain ⟨hasync, hfunction, -⟩ := mem_keywords
    have hfollowing : afterSpelling? Scan.functionWord (afterSpace rest) = none := by
      by_contra hsome
      obtain ⟨text, htext⟩ := Option.ne_none_iff_exists'.mp hsome
      have hb := he.2
      rw [eq_append_of_afterSpelling? htext] at hb
      cases hb
    have hclass : afterWord? Rule.classWord (c :: tail ++ rest) = none := by
      refine afterWord?_name (by decide) hn.isName.part he.1 fun heq => ?_
      have hin : "class" ∈ keywords := by decide
      exact hn.fresh (heq ▸ hin)
    rcases h with h | h | h
    · exact absurd (Option.some.inj h) (ne_of_isNameStart hc (by decide))
    · rw [hclass] at h
      cases h
    · by_contra hm
      have hnone := functionHead_name hn.isName.part he.1
        (fun heq => hn.fresh (heq ▸ hfunction)) (fun heq => hn.fresh (heq ▸ hasync))
        (fun _ _ _ => hfollowing) hm
      rw [hnone] at h
      cases h
  · rintro ⟨end_, hname⟩
    rw [← hname, List.append_assoc] at h
    exact not_opensText_yield _ h

end ScriptTree
