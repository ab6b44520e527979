import ScriptTree.Proofs.Standing

/-!
Names that are misread: what the rule table makes of them is a keyword.
-/

namespace ScriptTree

open Rule

theorem afterSpelling?_append (word text : List Char) :
    afterSpelling? word (word ++ text) = some text := by
  induction word with
  | nil => rfl
  | cons c word ih => rw [List.cons_append, afterSpelling?, if_pos rfl, ih]

theorem starOrBoundary?_eq_some {text : List Char}
    (h : StarFollows text ∨ atBoundary text = true) : ∃ star, Scan.starOrBoundary? text = some star := by
  unfold Scan.starOrBoundary?
  split
  · exact ⟨_, rfl⟩
  · rename_i hs
    rcases h with h | h
    · obtain ⟨text', ht⟩ := List.head?_eq_some_iff.mp h
      exact absurd ht (hs text')
    · exact ⟨[], if_pos h⟩

theorem IsGap.starFollows {gap rest : List Char} (hg : IsGap gap) (h : StarFollows rest) :
    StarFollows (gap ++ rest) := by
  rw [StarFollows, afterSpace, List.dropWhile_append_of_pos hg.space]
  exact h

theorem plainFunction?_eq_some {text : List Char} (h : StarFollows text ∨ atBoundary text = true) :
    ∃ head, Scan.plainFunction? (Scan.functionWord ++ text) = some (Scan.functionWord ++ head) := by
  obtain ⟨star, hs⟩ := starOrBoundary?_eq_some h
  refine ⟨star, ?_⟩
  simp only [Scan.plainFunction?, afterSpelling?_append, Option.bind_eq_bind, Option.bind_some, hs]

theorem functionHead_of_plainFunction? {gap text head : List Char} (hg : IsGap gap)
    (h : Scan.plainFunction? (Scan.functionWord ++ text) = some head) :
    Scan.functionHead (Scan.asyncWord ++ (gap ++ (Scan.functionWord ++ text))) =
      some (.whole (Scan.asyncWord ++ (gap ++ head))) := by
  have hl : leadingSpace (gap ++ (Scan.functionWord ++ text)) = gap := by
    rw [leadingSpace, List.takeWhile_append_of_pos hg.space, Scan.functionWord, List.cons_append,
      List.takeWhile_cons_of_neg (by decide), List.append_nil]
  have ha : afterSpace (gap ++ (Scan.functionWord ++ text)) = Scan.functionWord ++ text := by
    rw [afterSpace, List.dropWhile_append_of_pos hg.space, Scan.functionWord, List.cons_append,
      List.dropWhile_cons_of_neg (by decide)]
  have he : ¬gap.isEmpty = true := by simpa using hg.nonempty
  simp only [Scan.functionHead, afterSpelling?_append, hl, ha, h, if_neg he, Option.map_some,
    List.append_assoc]

theorem functionHead_async {gap text : List Char} (hg : IsGap gap)
    (h : StarFollows text ∨ atBoundary text = true) :
    ∃ head, Scan.functionHead (Scan.asyncWord ++ (gap ++ (Scan.functionWord ++ text))) =
      some (.whole (Scan.asyncWord ++ head)) := by
  obtain ⟨head, hp⟩ := plainFunction?_eq_some h
  exact ⟨_, functionHead_of_plainFunction? hg hp⟩

/-- A rule that matches is found if those tried before it do not match. -/
theorem first?_of_match {c : Char} {text : List Char} {earlier later : List Rule} {rule : Rule}
    {lexeme : Lexeme} {afterOperand : Bool} (hs : startingWith c = earlier ++ rule :: later)
    (hn : ∀ other ∈ earlier, other.match? (c :: text) = none)
    (ha : rule.appliesIn .default afterOperand = true)
    (hm : rule.match? (c :: text) = some (rule, lexeme)) :
    first? .default afterOperand (c :: text) = some (rule, lexeme) := by
  have hnone : (earlier.findSome? fun rule =>
      if rule.appliesIn .default afterOperand then rule.match? (c :: text) else none) = none := by
    rw [List.findSome?_eq_none_iff]
    intro other hin
    rw [hn other hin, ite_self]
  refine first?_of_startingWith rfl hs ?_
  rw [List.findSome?_append, hnone, Option.none_or, List.findSome?_cons, if_pos ha, hm]

theorem first?_of_keywordForm {c : Char} {text : List Char} {earlier later : List Rule}
    {kind : TokenKind} {lexical : LexicalForm} {lexeme : Lexeme} (afterOperand : Bool)
    (hs : startingWith c = earlier ++ keywordForm kind lexical :: later)
    (hn : ∀ rule ∈ earlier, rule.match? (c :: text) = none)
    (h : lexical.match? (c :: text) = some lexeme) (hr : lexeme.raw ≠ []) :
    first? .default afterOperand (c :: text) = some (keywordForm kind lexical, lexeme) := by
  have ha : (keywordForm kind lexical).appliesIn .default afterOperand = true := by
    cases afterOperand <;> rfl
  have hm : (keywordForm kind lexical).match? (c :: text) =
      some (keywordForm kind lexical, lexeme) := by
    simp [match?, keywordForm, Pattern.apply, h, hr]
  exact first?_of_match hs hn ha hm

theorem first?_yield {text : List Char} (h : StarFollows text) (afterOperand : Bool) :
    ∃ lexeme, first? .default afterOperand (Scan.yieldWord ++ text) =
      some (keywordForm .yieldKeyword .yieldHead, lexeme) := by
  obtain ⟨star, hstar⟩ := starOrBoundary?_eq_some (Or.inl h)
  have hm : LexicalForm.yieldHead.match? (Scan.yieldWord ++ text) =
      some (.whole (Scan.yieldWord ++ star)) := by
    simp only [LexicalForm.match?, Scan.yieldHead, afterSpelling?_append, Option.bind_eq_bind,
      Option.bind_some, hstar]
  have hs : startingWith 'y' = [] ++ _ :: _ := startingWith_of_lookup rfl
  exact ⟨_, first?_of_keywordForm afterOperand hs (fun _ hr => absurd hr List.not_mem_nil) hm
    (by simp [Lexeme.raw, Lexeme.whole, Scan.yieldWord])⟩

theorem first?_function {text : List Char} (h : StarFollows text) (afterOperand : Bool) :
    ∃ lexeme, first? .default afterOperand (Scan.functionWord ++ text) =
      some (keywordForm .functionKeyword .functionHead, lexeme) := by
  obtain ⟨head, hp⟩ := plainFunction?_eq_some (Or.inl h)
  have hm : LexicalForm.functionHead.match? (Scan.functionWord ++ text) =
      some (.whole (Scan.functionWord ++ head)) := by
    have ha : afterSpelling? Scan.asyncWord (Scan.functionWord ++ text) = none := rfl
    simp only [LexicalForm.match?, Scan.functionHead, ha, hp, Option.map_some]
  have hs : startingWith 'f' = [words .booleanLiteral ["true", "false"]] ++ _ :: _ :=
    startingWith_of_lookup rfl
  refine ⟨_, first?_of_keywordForm afterOperand hs ?_ hm
    (by simp [Lexeme.raw, Lexeme.whole, Scan.functionWord])⟩
  intro rule hr
  rw [List.mem_singleton.mp hr]
  rfl

theorem first?_async {gap text : List Char} (hg : IsGap gap)
    (h : StarFollows text ∨ atBoundary text = true) (afterOperand : Bool) :
    ∃ lexeme, first? .default afterOperand
        (Scan.asyncWord ++ (gap ++ (Scan.functionWord ++ text))) =
      some (keywordForm .functionKeyword .functionHead, lexeme) := by
  obtain ⟨head, hm⟩ := functionHead_async hg h
  have hs : startingWith 'a' = [] ++ _ :: _ := startingWith_of_lookup rfl
  exact ⟨_, first?_of_keywordForm afterOperand hs (fun _ hr => absurd hr List.not_mem_nil) hm
    (by simp [Lexeme.raw, Lexeme.whole, Scan.asyncWord])⟩

theorem Misread.first? {name rest : List Char} (h : Misread rest name)
    (hb : atBoundary rest = true) (afterOperand : Bool) :
    ∃ rule lexeme, first? .default afterOperand (name ++ rest) = some (rule, lexeme) ∧
      (rule.kind = .yieldKeyword ∨ rule.kind = .functionKeyword) := by
  cases h with
  | yield hg hs =>
    obtain ⟨lexeme, hf⟩ := first?_yield (hg.starFollows hs) afterOperand
    exact ⟨keywordForm .yieldKeyword .yieldHead, lexeme, by rw [List.append_assoc]; exact hf,
      Or.inl rfl⟩
  | function hg hs =>
    obtain ⟨lexeme, hf⟩ := first?_function (hg.starFollows hs) afterOperand
    exact ⟨keywordForm .functionKeyword .functionHead, lexeme,
      by rw [List.append_assoc]; exact hf, Or.inr rfl⟩
  | async hg =>
    obtain ⟨lexeme, hf⟩ := first?_async hg (Or.inr hb) afterOperand
    exact ⟨keywordForm .functionKeyword .functionHead, lexeme,
      by rw [List.append_assoc, List.append_assoc]; exact hf, Or.inr rfl⟩
  | asyncStar hg hg' hs =>
    obtain ⟨lexeme, hf⟩ := first?_async hg (Or.inl (hg'.starFollows hs)) afterOperand
    refine ⟨keywordForm .functionKeyword .functionHead, lexeme, ?_, Or.inr rfl⟩
    rw [List.append_assoc, List.append_assoc, List.append_assoc]
    exact hf

theorem Misread.head_not_space {name rest : List Char} (h : Misread rest name) (text : List Char) :
    ∀ c ∈ (name ++ text).head?, isSpace c = false := by
  intro c hc
  cases h <;> (cases hc; rfl)

theorem not_starFollows_nil : ¬StarFollows [] := by
  intro h
  cases h

/-- Before a boundary and no star, a misread name is all of a keyword. -/
theorem Misread.begins {name rest : List Char} (h : Misread [] name) (hb : atBoundary rest = true)
    (hs : ¬StarFollows rest) (afterOperand : Bool) :
    Begins .default afterOperand .functionKeyword none name rest := by
  cases h with
  | yield _ hstar | function _ hstar | asyncStar _ _ hstar => exact absurd hstar not_starFollows_nil
  | @async gap hg =>
    have hstar : Scan.starOrBoundary? rest = some [] := by
      unfold Scan.starOrBoundary?
      split
      · rename_i he
        exact absurd (by rw [StarFollows, he]; rfl) hs
      · exact if_pos hb
    have hplain : Scan.plainFunction? (Scan.functionWord ++ rest) = some Scan.functionWord := by
      simp only [Scan.plainFunction?, afterSpelling?_append, hstar, Option.bind_eq_bind,
        Option.bind_some, List.append_nil]
    have hm := functionHead_of_plainFunction? hg hplain
    have hrules : startingWith 'a' = [] ++ _ :: _ := startingWith_of_lookup rfl
    refine ⟨keywordForm .functionKeyword .functionHead, ?_, rfl, rfl⟩
    rw [List.append_assoc, List.append_assoc]
    exact first?_of_keywordForm afterOperand hrules (fun _ hr => absurd hr List.not_mem_nil) hm
      (by simp [Lexeme.raw, Lexeme.whole, Scan.asyncWord])

/-- Where a name is misread, a keyword is the current token. -/
theorem Misread.current {lexer : Lexer} {name rest : List Char} {afterOperand : Bool}
    (h : Misread rest name) (hb : atBoundary rest = true)
    (hf : lexer.Facing .default afterOperand (name ++ rest)) :
    ∃ word, lexer.current = some word ∧
      (word.kind = .yieldKeyword ∨ word.kind = .functionKeyword) := by
  obtain ⟨rule, lexeme, hr, hk⟩ := h.first? hb afterOperand
  have hne : name ++ rest ≠ [] := by
    obtain ⟨c, hc, -⟩ := h.exists_mem
    exact List.append_ne_nil_of_left_ne_nil (List.ne_nil_of_mem hc) rest
  have ht : rule.kind.isTrivia = false := by rcases hk with hk | hk <;> rw [hk] <;> rfl
  obtain ⟨earlier, newline, -, rfl⟩ := hf.emits hne hr ht
  exact ⟨_, rfl, hk⟩

end ScriptTree
