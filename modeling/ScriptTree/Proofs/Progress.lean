import ScriptTree.Proofs.StateLaws
import ScriptTree.Proofs.Names

/-!
How far a parse has come.

The measure is the text from the current token on, or from the cursor on if there is no current
token. A request for a token never makes it longer, though the cursor may go back; a request behind a
current token makes it shorter.
-/

namespace ScriptTree

namespace Lexer

/-- The number of characters that are not passed yet, those of the current token included. -/
def left (lexer : Lexer) : Nat :=
  match lexer.current, lexer.history with
  | some _, last :: _ => last.start.rest.length
  | _, _ => lexer.cursor.rest.length

theorem left_of_none {lexer : Lexer} (h : lexer.current = none) :
    lexer.left = lexer.cursor.rest.length := by
  unfold left
  rw [h]

/-- The next token, or the place where none is found, lies behind the cursor. -/
theorem next_left_le (lexer : Lexer) (mode : LexerMode) :
    (lexer.next mode).left ≤ lexer.cursor.rest.length := by
  have hlead := seek_leads mode lexer.afterOperand (lexer.cursor.rest.length + 1) lexer.cursor false
  unfold next
  cases hs : seek mode lexer.afterOperand (lexer.cursor.rest.length + 1) lexer.cursor false with
  | token start kind lexeme precedence newline =>
    rw [hs] at hlead
    exact hlead.1.length_le
  | stuck place =>
    rw [hs] at hlead
    exact hlead.length_le
  | finished place =>
    rw [hs] at hlead
    exact hlead.length_le

namespace Faithful

variable {lexer : Lexer}

/-- The current token lies before the cursor and is not empty. -/
theorem cursor_lt_left (h : lexer.Faithful) {token : Token} (ht : lexer.current = some token) :
    lexer.cursor.rest.length < lexer.left := by
  obtain ⟨place, closesOperand, history, hh, hat, hc⟩ := h.current token ht
  obtain ⟨-, -, hne, rest, hp⟩ := hat.spans
  have hl : lexer.left = place.rest.length := by
    unfold left
    rw [ht, hh]
  have hpos := List.length_pos_iff.mpr hne
  have hlen := congrArg List.length hp
  rw [List.length_append] at hlen
  rw [hl, hc, Cursor.advance, List.length_drop]
  omega

theorem cursor_le_left (h : lexer.Faithful) : lexer.cursor.rest.length ≤ lexer.left := by
  cases ht : lexer.current with
  | none => exact (left_of_none ht).ge
  | some token => exact (h.cursor_lt_left ht).le

theorem reread_left_le (h : lexer.Faithful) (mode : LexerMode) :
    (lexer.reread mode).left ≤ lexer.left := by
  unfold Lexer.reread
  split
  · rename_i token last history ht hh
    have hl : lexer.left = last.start.rest.length := by
      unfold left
      rw [ht, hh]
    rw [hl]
    exact next_left_le { lexer with cursor := last.start, history } mode
  · exact (next_left_le lexer mode).trans h.cursor_le_left

/-- The measure belongs to the place that is reported as the position of the parse. -/
theorem marker_splits (h : lexer.Faithful) : ∃ front rest, lexer.source = front ++ rest ∧
    lexer.marker = byteLength front ∧ lexer.left = rest.length := by
  obtain ⟨tokens, htiled⟩ := h.tiled
  cases ht : lexer.current with
  | none =>
    obtain ⟨front, hs, ho⟩ := htiled.splits
    refine ⟨front, lexer.cursor.rest, hs, ?_, left_of_none ht⟩
    rw [marker, ht]
    exact ho
  | some token =>
    obtain ⟨place, closesOperand, history, hh, hat, -⟩ := h.current token ht
    rw [hh] at htiled
    obtain ⟨others, hback⟩ := htiled.back
    obtain ⟨front, hs, ho⟩ := hback.splits
    refine ⟨front, place.rest, hs, ?_, ?_⟩
    · rw [marker, ht]
      exact hat.spans.1.trans ho
    · unfold left
      rw [ht, hh]

theorem left_le_length (h : lexer.Faithful) : lexer.left ≤ lexer.source.length := by
  obtain ⟨front, rest, hs, -, hl⟩ := h.marker_splits
  rw [hl, hs, List.length_append]
  omega

/-- Where less of the same text is left, the position is further on. -/
theorem marker_lt (h : lexer.Faithful) {later : Lexer} (h' : later.Faithful)
    (hs : later.source = lexer.source) (hl : later.left < lexer.left) :
    lexer.marker < later.marker := by
  obtain ⟨front, rest, hf, hm, hr⟩ := h.marker_splits
  obtain ⟨front', rest', hf', hm', hr'⟩ := h'.marker_splits
  have he : front ++ rest = front' ++ rest' := by rw [← hf, ← hf', hs]
  -- the longer front has the shorter one as its beginning, and more behind it
  have hlen : front.length < front'.length := by
    have hsum := congrArg List.length he
    simp only [List.length_append] at hsum
    omega
  obtain ⟨piece, hp⟩ := List.prefix_of_prefix_length_le ⟨rest, he⟩ ⟨rest', rfl⟩ hlen.le
  rw [hm, hm', ← hp, byteLength_append]
  have hpiece : piece ≠ [] := by
    rintro rfl
    rw [List.append_nil] at hp
    rw [hp] at hlen
    exact Nat.lt_irrefl _ hlen
  cases piece with
  | nil => exact absurd rfl hpiece
  | cons c piece =>
    have hc := c.utf8Size_pos
    rw [byteLength]
    omega

end Faithful

end Lexer

/-- Whether all that a pattern matches starts like a name. -/
def Pattern.startsOnlyNames : Pattern → Bool
  | .words spellings | .punctuators spellings =>
    spellings.all fun spelling => spelling.toList.head?.any isNameStart
  | .form lexical => match lexical with
    | .functionHead | .yieldHead | .forHead | .relationalWord | .continueJump | .breakJump
    | .importWord | .exportDefault | .identifier => true
    | _ => false

theorem isNameStart_of_canStart {pattern : Pattern} (hp : pattern.startsOnlyNames = true) {c : Char}
    (h : pattern.canStart c = true) : isNameStart c = true := by
  cases pattern with
  | words spellings | punctuators spellings =>
    simp only [Pattern.canStart, List.any_eq_true] at h
    obtain ⟨spelling, hs, hh⟩ := h
    have hn := List.all_eq_true.mp hp spelling hs
    cases hl : spelling.toList with
    | nil => simp [hl] at hn
    | cons d tail =>
      rw [hl] at hh hn
      have hd : d = c := by simpa using hh
      rw [← hd]
      simpa using hn
  | form lexical =>
    cases lexical <;> simp only [Pattern.startsOnlyNames, reduceCtorEq] at hp <;>
      simp only [Pattern.canStart, LexicalForm.canStart, Bool.or_eq_true, beq_iff_eq] at h
    case identifier => exact h
    case functionHead | relationalWord | importWord => rcases h with rfl | rfl <;> decide
    all_goals
      rw [h]
      decide

/-- Whether a pattern is a matter of symbols. -/
def Pattern.isSymbolic : Pattern → Bool
  | .punctuators spellings => spellings.all fun spelling => !spelling.toList.all Char.isAlpha
  | _ => false

theorem value_of_isSymbolic {pattern : Pattern} (hp : pattern.isSymbolic = true) {text : List Char}
    {lexeme : Lexeme} (h : pattern.apply text = some lexeme) :
    lexeme.value.all Char.isAlpha = false := by
  cases pattern with
  | punctuators spellings =>
    obtain ⟨word, hw, rfl⟩ := Option.map_eq_some_iff.mp h
    have hs := List.all_eq_true.mp hp word (List.mem_of_find?_eq_some hw)
    simpa [Lexeme.whole] using hs
  | words spellings => cases hp
  | form lexical => cases hp

namespace Rule

/-- The rules for names, for keywords and for operators match what starts like a name, except for
the operators that are symbols. -/
theorem startsOnlyNames_of_kind : ∀ rule ∈ table,
    rule.kind = .identifierName ∨ rule.kind.isKeyword = true ∨ rule.kind = .operator →
      rule.pattern.startsOnlyNames = true ∨
        (rule.kind ≠ .identifierName ∧ rule.kind.isKeyword = false) ∧
          rule.pattern.isSymbolic = true := by
  decide

/-- Where keywords are read as names, a text that starts like a name starts with one. -/
theorem first?_names {c : Char} (h : isNameStart c = true) (afterOperand : Bool)
    (text : List Char) : ∃ rule lexeme, first? .names afterOperand (c :: text) = some (rule, lexeme) ∧
      rule.kind = .identifierName := by
  have hname : IsName (c :: text.takeWhile isNamePart) :=
    isName_cons_iff.mpr ⟨h, fun d hd => List.mem_takeWhile_imp hd⟩
  have hb : atBoundary (text.dropWhile isNamePart) = true := by
    have hd := List.head?_dropWhile_not isNamePart text
    cases hr : text.dropWhile isNamePart with
    | nil => rfl
    | cons d rest =>
      rw [hr] at hd
      simpa [atBoundary] using hd
  obtain ⟨rule, hf, hk, -⟩ := begins_anyName hname hb afterOperand
  rw [List.cons_append, List.takeWhile_append_dropWhile] at hf
  exact ⟨rule, _, hf, hk⟩

end Rule

/-- A word that can be read as a name starts like one. -/
theorem Token.At.isNameStart_of_canBeName {place : Cursor} {word : Token} (h : word.At place)
    (hn : ParserM.canBeName word = true) : ∃ c text, place.rest = c :: text ∧
      isNameStart c = true := by
  cases h with
  | comment hf he => cases hn
  | @plain mode afterOperand newline rule lexeme hf ht =>
    obtain ⟨ha, hr⟩ := Rule.applies_of_first hf
    -- no word is a piece of template text
    have hin : rule ∈ Rule.table := by
      rcases hr with ⟨-, rfl⟩ | ⟨-, hin, -⟩
      · cases hn
      · exact hin
    have hne : place.rest ≠ [] := by
      intro h0
      have hp := Rule.first?_isPrefix hf
      rw [h0] at hp
      exact Rule.raw_ne_nil_of_first hf (List.prefix_nil.mp hp)
    obtain ⟨c, text, hc⟩ := List.exists_cons_of_ne_nil hne
    have hstart : rule.pattern.canStart c = true := by
      by_contra hno
      rw [hc, Pattern.apply_eq_none text (Bool.eq_false_iff.mpr hno)] at ha
      cases ha
    refine ⟨c, text, hc, ?_⟩
    have hword : rule.kind = .identifierName ∨ rule.kind.isKeyword = true ∨
        rule.kind = .operator ∧ lexeme.value.all Char.isAlpha = true := by
      simpa [ParserM.canBeName, Token.ofLexeme, or_assoc] using hn
    have hkind : rule.kind = .identifierName ∨ rule.kind.isKeyword = true ∨
        rule.kind = .operator := hword.imp_right (Or.imp_right And.left)
    rcases Rule.startsOnlyNames_of_kind rule hin hkind with hs | ⟨⟨hi, hk⟩, hsym⟩
    · exact isNameStart_of_canStart hs hstart
    · -- of the operators only those of letters can be names
      rcases hword with h' | h' | ⟨-, hletters⟩
      · exact absurd h' hi
      · rw [hk] at h'
        cases h'
      · rw [value_of_isSymbolic hsym ha] at hletters
        cases hletters

/-- A word that can be read as a name is found again when it is read as one. -/
theorem Lexer.Faithful.reread_names {lexer : Lexer} (h : lexer.Faithful) {word : Token}
    (hw : lexer.current = some word) (hn : ParserM.canBeName word = true) :
    ∃ again, (lexer.reread .names).current = some again := by
  obtain ⟨place, closesOperand, history, hh, hat, -⟩ := h.current word hw
  obtain ⟨c, text, hc, hstart⟩ := hat.isNameStart_of_canBeName hn
  have hr : lexer.reread .names = { lexer with cursor := place, history }.next .names := by
    unfold Lexer.reread
    rw [hw, hh]
  obtain ⟨rule, lexeme, hf, hk⟩ := Rule.first?_names hstart
    ({ lexer with cursor := place, history } : Lexer).afterOperand text
  have ht : rule.kind.isTrivia = false := by
    rw [hk]
    rfl
  have hs : Lexer.seek .names ({ lexer with cursor := place, history } : Lexer).afterOperand
      (place.rest.length + 1) place false =
        .token place rule.kind lexeme rule.precedence false := by
    rw [Lexer.seek, hc]
    simp [hf, ht]
  rw [hr, Lexer.next, hs]
  exact ⟨_, rfl⟩

end ScriptTree
