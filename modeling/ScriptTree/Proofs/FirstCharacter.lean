import ScriptTree.Token.Lexer

/-!
Which lexical rules can match, by the first character of the text.

Only a few rules of the table are left once the first character is known. For the symbols they are
few enough to be tried out.
-/

namespace ScriptTree

/-- Whether a lexical form can start with a character. -/
def LexicalForm.canStart (c : Char) : LexicalForm → Bool
  | .functionHead => c == 'a' || c == 'f'
  | .yieldHead => c == 'y'
  | .forHead => c == 'f'
  | .relationalWord => c == 'i' || c == 'o'
  | .continueJump => c == 'c'
  | .breakJump => c == 'b'
  | .importWord => c == 'a' || c == 'f'
  | .exportDefault => c == 'e'
  | .blockComment | .lineComment | .regex => c == '/'
  | .number => c.isDigit || c == '.'
  | .identifier => isNameStart c
  | .string => c == '\x27' || c == '\x22'
  | .templateChunk => true
  | .lineFeed => c == '\n'
  | .inlineSpace | .space => isSpace c

/-- Whether a pattern can start with a character. -/
def Pattern.canStart (c : Char) : Pattern → Bool
  | .words spellings | .punctuators spellings =>
    spellings.any fun spelling => spelling.toList.isEmpty || spelling.toList.head? == some c
  | .form lexical => lexical.canStart c

theorem afterSpelling?_cons_of_ne {s c : Char} (h : c ≠ s) (spelling text : List Char) :
    afterSpelling? (s :: spelling) (c :: text) = none := by
  rw [afterSpelling?, if_neg (Ne.symm h)]

theorem afterSpelling?_eq_none {spelling : List Char} {c : Char} (text : List Char)
    (h : (spelling.isEmpty || spelling.head? == some c) = false) :
    afterSpelling? spelling (c :: text) = none := by
  cases spelling with
  | nil => simp at h
  | cons s spelling =>
    have hs : c ≠ s := by rintro rfl; simp at h
    exact afterSpelling?_cons_of_ne hs spelling text

theorem afterWord?_eq_none {word : List Char} {c : Char} (text : List Char)
    (h : (word.isEmpty || word.head? == some c) = false) : afterWord? word (c :: text) = none := by
  rw [afterWord?, afterSpelling?_eq_none text h]
  rfl

theorem isDigit_iff {c : Char} : c.isDigit = true ↔ 48 ≤ c.toNat ∧ c.toNat ≤ 57 := by
  simp only [Char.isDigit, Bool.and_eq_true, decide_eq_true_eq]
  exact Iff.rfl

/-- A number starts with a digit or a point: with the zero of a radix, or with a mantissa. -/
theorem Scan.numeral?_eq_none {c : Char} (text : List Char) (h : (c.isDigit || c == '.') = false) :
    numeral? (c :: text) = none := by
  simp only [Bool.or_eq_false_iff, beq_eq_false_iff_ne] at h
  have h0 : c ≠ '0' := by rintro rfl; exact absurd h.1 (by decide)
  have hr : radixInteger? (c :: text) = none := by
    unfold radixInteger?
    split
    · rename_i he
      exact absurd (List.cons.inj he).1 h0
    · rfl
  have hm : mantissa? (c :: text) = none := by
    simp only [mantissa?, List.takeWhile_cons, List.dropWhile_cons, h.1, Bool.false_eq_true,
      if_false]
    split
    · rename_i he
      exact absurd (List.cons.inj he).1 h.2
    · rfl
  simp only [numeral?, hr, hm]
  rfl

/-- A form does not match a text whose first character it cannot start with. -/
theorem LexicalForm.match?_eq_none {form : LexicalForm} {c : Char} (text : List Char)
    (h : form.canStart c = false) : form.match? (c :: text) = none := by
  cases form with
  | functionHead =>
    simp only [canStart, Bool.or_eq_false_iff, beq_eq_false_iff_ne] at h
    simp only [match?, Scan.functionHead, Scan.plainFunction?, Scan.asyncWord, Scan.functionWord,
      afterSpelling?_cons_of_ne h.1, afterSpelling?_cons_of_ne h.2]
    rfl
  | yieldHead =>
    simp only [canStart, beq_eq_false_iff_ne] at h
    simp only [match?, Scan.yieldHead, Scan.yieldWord, afterSpelling?_cons_of_ne h]
    rfl
  | forHead =>
    simp only [canStart, beq_eq_false_iff_ne] at h
    simp only [match?, Scan.forHead, Scan.forWords?, Scan.forWord, afterWord?,
      afterSpelling?_cons_of_ne h]
    rfl
  | relationalWord | importWord =>
    simp only [canStart, Bool.or_eq_false_iff, beq_eq_false_iff_ne] at h
    simp only [match?, Scan.relationalWord, Scan.importWord, Scan.wordBeforeSpace, afterWord?,
      List.findSome?, afterSpelling?_cons_of_ne h.1, afterSpelling?_cons_of_ne h.2]
    rfl
  | continueJump | breakJump =>
    simp only [canStart, beq_eq_false_iff_ne] at h
    simp only [match?, Scan.jump, Scan.continueWord, Scan.breakWord, afterWord?,
      afterSpelling?_cons_of_ne h]
    rfl
  | exportDefault =>
    simp only [canStart, beq_eq_false_iff_ne] at h
    simp only [match?, Scan.exportDefault, Scan.exportWord, afterWord?,
      afterSpelling?_cons_of_ne h]
    rfl
  | blockComment | lineComment | regex =>
    simp only [canStart, beq_eq_false_iff_ne] at h
    simp only [match?, Scan.blockComment, Scan.lineComment, Scan.regex]
    split
    · rename_i he
      exact absurd (List.cons.inj he).1 h
    · rfl
  | number =>
    simp only [canStart] at h
    simp only [match?, Scan.number, Scan.numeral?_eq_none text h]
  | identifier =>
    simp only [canStart] at h
    simp [match?, Scan.identifier, Scan.name?, h]
  | string =>
    simp only [canStart] at h
    simp only [match?, Scan.string, h, Bool.false_eq_true, if_false]
  | templateChunk => cases h
  | lineFeed =>
    simp only [canStart, beq_eq_false_iff_ne] at h
    simp only [match?, Scan.lineFeed]
    split
    · rename_i he
      exact absurd (List.cons.inj he).1 h
    · rfl
  | inlineSpace | space =>
    simp only [canStart] at h
    simp [match?, Scan.run, h]

theorem Pattern.apply_eq_none {pattern : Pattern} {c : Char} (text : List Char)
    (h : pattern.canStart c = false) : pattern.apply (c :: text) = none := by
  cases pattern with
  | words spellings =>
    simp only [canStart, List.any_eq_false, Bool.not_eq_true] at h
    rw [apply, Option.map_eq_none_iff, List.find?_eq_none]
    intro word hw
    simp [afterWord?_eq_none text (h word hw)]
  | punctuators spellings =>
    simp only [canStart, List.any_eq_false, Bool.not_eq_true] at h
    rw [apply, Option.map_eq_none_iff, List.find?_eq_none]
    intro word hw
    simp [afterSpelling?_eq_none text (h word hw)]
  | form lexical => exact lexical.match?_eq_none text h

namespace Rule

/-- The rules that can match a text with a given first character, in their order. -/
def startingWith (c : Char) : List Rule := table.filter fun rule => rule.pattern.canStart c

theorem match?_eq_none {rule : Rule} {c : Char} (text : List Char)
    (h : rule.pattern.canStart c = false) : rule.match? (c :: text) = none := by
  rw [match?, Pattern.apply_eq_none text h]
  rfl

theorem findSome?_filter_eq {α β : Type} {f : α → Option β} {p : α → Bool}
    (h : ∀ a, p a = false → f a = none) (l : List α) :
    (l.filter p).findSome? f = l.findSome? f := by
  induction l with
  | nil => rfl
  | cons a l ih =>
    cases ha : p a with
    | true => simp only [List.filter_cons, ha, if_true, List.findSome?_cons, ih]
    | false => simp [ha, h a ha, ih]

theorem findSome?_congr {α β : Type} {f g : α → Option β} {l : List α}
    (h : ∀ a ∈ l, f a = g a) : l.findSome? f = l.findSome? g := by
  induction l with
  | nil => rfl
  | cons a l ih =>
    rw [List.findSome?_cons, List.findSome?_cons, h a List.mem_cons_self,
      ih fun b hb => h b (List.mem_cons_of_mem a hb)]

/-- Only the rules that can start with the first character have to be tried. -/
theorem first?_eq_startingWith (mode : LexerMode) (afterOperand : Bool) (c : Char)
    (text : List Char) (hm : mode.template = false) :
    first? mode afterOperand (c :: text) = (startingWith c).findSome? fun rule =>
      if rule.appliesIn mode afterOperand then rule.match? (c :: text) else none := by
  rw [first?, if_neg (by simp [hm]), startingWith]
  refine (findSome?_filter_eq (fun rule hc => ?_) table).symm
  simp [match?_eq_none text hc]

theorem first?_of_startingWith {mode : LexerMode} {afterOperand : Bool} {rules : List Rule} {c : Char}
    {text : List Char} {found : Rule × Lexeme} (hm : mode.template = false)
    (hs : startingWith c = rules)
    (hr : (rules.findSome? fun rule =>
      if rule.appliesIn mode afterOperand then rule.match? (c :: text) else none) = some found) :
    first? mode afterOperand (c :: text) = some found := by
  rw [first?_eq_startingWith _ _ _ _ hm, hs]
  exact hr

end Rule

end ScriptTree
