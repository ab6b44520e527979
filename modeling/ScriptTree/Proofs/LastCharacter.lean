import ScriptTree.Proofs.ClosedOperand

/-!
The last character of a token with which an operand ends.

A closing brace at the end of a text is a token of its own, unless it belongs to one that ends with a
brace. No token that is taken for the end of an operand does.
-/

namespace ScriptTree

namespace Scan

variable {text : List Char}

theorem not_mem_takeWhile {p : Char → Bool} {c : Char} (text : List Char) (h : p c = false) :
    c ∉ text.takeWhile p := by
  intro hm
  have hc : p c = true := List.mem_takeWhile_imp hm
  rw [h] at hc
  cases hc

theorem brace_not_mem_radixInteger? {digits : List Char} (h : radixInteger? text = some digits) :
    '\x7d' ∉ digits := by
  unfold radixInteger? at h
  split at h
  · rename_i marker text
    simp only [Option.bind_eq_bind, Option.bind_eq_some_iff] at h
    obtain ⟨isDigit, hd, h⟩ := h
    have hfacts : marker ≠ '\x7d' ∧ isDigit '\x7d' = false := by
      unfold radixDigit? at hd
      split at hd
      · rename_i hx
        cases hd
        refine ⟨?_, rfl⟩
        rintro rfl
        exact absurd hx (by decide)
      · split at hd
        · rename_i ho
          cases hd
          refine ⟨?_, rfl⟩
          rintro rfl
          exact absurd ho (by decide)
        · split at hd
          · rename_i hb
            cases hd
            refine ⟨?_, rfl⟩
            rintro rfl
            exact absurd hb (by decide)
          · cases hd
    split at h
    · cases h
    · cases h
      have hrest := not_mem_takeWhile text hfacts.2
      simp [hrest, Ne.symm hfacts.1]
  · cases h

theorem brace_not_mem_mantissa? {digits : List Char} (h : mantissa? text = some digits) :
    '\x7d' ∉ digits := by
  have hno : Char.isDigit '\x7d' = false := rfl
  have hwhole := not_mem_takeWhile text hno
  unfold mantissa? at h
  dsimp only at h
  split at h
  · rename_i rest _
    have hfraction := not_mem_takeWhile rest hno
    split at h
    · cases h
    · cases h
      simp [hwhole, hfraction]
  · split at h
    · cases h
    · cases h
      exact hwhole

theorem brace_not_mem_exponent (text : List Char) : '\x7d' ∉ exponent text := by
  cases text with
  | nil => exact List.not_mem_nil
  | cons mark text =>
    have digits (sign : List Char) (hmark : mark ≠ '\x7d') (hs : '\x7d' ∉ sign) :
        '\x7d' ∉ if ((text.drop sign.length).takeWhile Char.isDigit).isEmpty then []
          else mark :: sign ++ (text.drop sign.length).takeWhile Char.isDigit := by
      have hno : Char.isDigit '\x7d' = false := rfl
      split <;> simp [hs, Ne.symm hmark, not_mem_takeWhile _ hno]
    unfold exponent
    dsimp only
    by_cases hmark : (mark == 'e' || mark == 'E') = true
    · have hne : mark ≠ '\x7d' := by
        rintro rfl
        exact absurd hmark (by decide)
      rw [if_pos hmark]
      apply digits _ hne
      split <;> decide
    · rw [if_neg hmark]
      exact List.not_mem_nil

/-- A number ends with no brace: it has none. -/
theorem getLast?_number {lexeme : Lexeme} (h : number text = some lexeme) :
    lexeme.raw.getLast? ≠ some '\x7d' := by
  have hall {numeral : List Char} (hn : numeral? text = some numeral) : '\x7d' ∉ numeral := by
    unfold numeral? at hn
    split at hn
    · rename_i hr
      cases hn
      exact brace_not_mem_radixInteger? hr
    · obtain ⟨mantissa, hm, rfl⟩ := Option.map_eq_some_iff.mp hn
      exact List.not_mem_append (brace_not_mem_mantissa? hm) (brace_not_mem_exponent _)
  have hwhole {numeral : List Char} (hn : numeral? text = some numeral) :
      (Lexeme.whole numeral).raw.getLast? ≠ some '\x7d' := by
    intro hlast
    have hmem := List.mem_of_getLast? hlast
    simp only [Lexeme.raw, Lexeme.whole, List.nil_append, List.append_nil] at hmem
    exact hall hn hmem
  unfold number at h
  split at h
  · rename_i numeral hn
    split at h
    · split at h
      · cases h
      · cases h
        exact hwhole hn
    · cases h
      exact hwhole hn
  · cases h

theorem getLast?_identifier {lexeme : Lexeme} (h : identifier text = some lexeme) :
    lexeme.raw.getLast? ≠ some '\x7d' := by
  obtain ⟨name, hn, rfl⟩ := Option.map_eq_some_iff.mp h
  intro hlast
  have hmem := List.mem_of_getLast? hlast
  simp only [Lexeme.raw, Lexeme.whole, List.nil_append, List.append_nil] at hmem
  exact absurd (Lexer.isNamePart_of_name? hn _ hmem) (by decide)

/-- A string ends with its quote. -/
theorem getLast?_string {lexeme : Lexeme} (h : string text = some lexeme) :
    lexeme.raw.getLast? ≠ some '\x7d' := by
  unfold string at h
  split at h
  · rename_i quote text
    split at h
    · rename_i hquote
      obtain ⟨body, -, rfl⟩ := Option.map_eq_some_iff.mp h
      simp only [Lexeme.raw, List.getLast?_append, List.getLast?_singleton, Option.some_or]
      rintro ⟨rfl⟩
      exact absurd hquote (by decide)
    · cases h
  · cases h

/-- A regular expression ends with a slash or with a flag. -/
theorem getLast?_regex {lexeme : Lexeme} (h : regex text = some lexeme) :
    lexeme.raw.getLast? ≠ some '\x7d' := by
  unfold regex at h
  split at h
  · rename_i text
    split at h
    · cases h
    · rename_i body _ _
      cases h
      have hflags := not_mem_takeWhile (text.drop (body.length + 1))
        (rfl : isRegexFlag '\x7d' = false)
      simp only [Lexeme.raw, Lexeme.whole, List.nil_append, List.append_nil, List.getLast?_append,
        List.getLast?_cons, Option.some_or]
      intro hlast
      cases hf : (List.takeWhile isRegexFlag (text.drop (body.length + 1))).getLast? with
      | none =>
        rw [hf] at hlast
        cases hlast
      | some flag =>
        rw [hf] at hlast
        cases hlast
        exact hflags (List.mem_of_getLast? hf)
    · cases h
  · cases h

theorem getLast?_wordBeforeSpace {words : List (List Char)} {lexeme : Lexeme}
    (hw : ∀ word ∈ words, word.getLast? ≠ some '\x7d') (h : wordBeforeSpace words text = some lexeme) :
    lexeme.raw.getLast? ≠ some '\x7d' := by
  obtain ⟨word, hin, hx⟩ := List.exists_of_findSome?_eq_some h
  split at hx
  · split at hx
    · cases hx
      simpa [Lexeme.raw, Lexeme.whole] using hw word hin
    · cases hx
  · cases hx

/-- A piece of a template ends with a backtick or with an opening brace. -/
theorem getLast?_templateChunk {lexeme : Lexeme} (h : templateChunk text = some lexeme) :
    lexeme.raw.getLast? ≠ some '\x7d' := by
  obtain ⟨⟨body, stop⟩, hb, rfl⟩ := Option.map_eq_some_iff.mp h
  rcases Lexer.templateBody?_stop_cases hb with rfl | rfl <;> simp [Lexeme.raw]

end Scan

namespace Pattern

/-- Whether a pattern consists of spellings and of forms that end with no closing brace. -/
def sparesBrace : Pattern → Bool
  | .words spellings | .punctuators spellings =>
    spellings.all fun spelling => spelling.toList.getLast? != some '\x7d'
  | .form lexical => [.regex, .number, .identifier, .string, .relationalWord].contains lexical

theorem getLast?_apply {pattern : Pattern} {text : List Char} {lexeme : Lexeme}
    (hp : pattern.sparesBrace = true) (h : pattern.apply text = some lexeme) :
    lexeme.raw.getLast? ≠ some '\x7d' := by
  have spelled {spellings : List String} {passes : String → Bool}
      (hs : (spellings.all fun spelling => spelling.toList.getLast? != some '\x7d') = true)
      (hx : (spellings.find? passes).map (fun word => Lexeme.whole word.toList) = some lexeme) :
      lexeme.raw.getLast? ≠ some '\x7d' := by
    obtain ⟨word, hw, rfl⟩ := Option.map_eq_some_iff.mp hx
    have hne := List.all_eq_true.mp hs word (List.mem_of_find?_eq_some hw)
    simpa [Lexeme.raw, Lexeme.whole] using hne
  cases pattern with
  | words spellings => exact spelled hp h
  | punctuators spellings => exact spelled hp h
  | form lexical =>
    simp only [sparesBrace, List.contains_eq_mem, List.mem_cons, List.not_mem_nil, or_false,
      decide_eq_true_eq] at hp
    rcases hp with rfl | rfl | rfl | rfl | rfl
    · exact Scan.getLast?_regex h
    · exact Scan.getLast?_number h
    · exact Scan.getLast?_identifier h
    · exact Scan.getLast?_string h
    · exact Scan.getLast?_wordBeforeSpace (by decide) h

end Pattern

namespace Lexer

variable {lexer : Lexer}

/-- No token that can be the end of an operand ends with a closing brace. -/
theorem getLast?_of_at {place : Cursor} {word : Token} (h : word.At place)
    (hk : word.kind.closesOperand = true ∨ word.kind = .operator ∨ word.kind = .templateChunk) :
    word.raw.toList.getLast? ≠ some '\x7d' := by
  have hrules : ∀ rule ∈ Rule.table,
      (rule.kind.closesOperand = true ∨ rule.kind = .operator ∨ rule.kind = .templateChunk) →
        rule.pattern.sparesBrace = true := by
    decide
  cases h with
  | comment hf he => simp [Token.ofLexeme, TokenKind.closesOperand] at hk
  | @plain mode afterOperand newline rule lexeme hf ht =>
    rw [Token.ofLexeme, String.toList_ofList]
    obtain ⟨ha, ⟨-, rfl⟩ | ⟨-, hin, -⟩⟩ := Rule.applies_of_first hf
    · exact Scan.getLast?_templateChunk ha
    · exact Pattern.getLast?_apply (hrules rule hin hk) ha

/-- Of the tokens with which an operand ends, only the closing brace is not taken for the end of one;
so at the end of a text its last character tells. -/
theorem AtEnd.getLast?_iff (h : lexer.AtEnd) (hm : lexer.Marked) (hf : lexer.Faithful)
    (hr : lexer.cursor.rest = []) :
    lexer.source.getLast? = some '\x7d' ↔ lexer.afterOperand = false := by
  -- the last character of the text is that of the token
  have hlast {word : Token} (hw : lexer.current = some word) :
      lexer.source.getLast? = word.raw.toList.getLast? := by
    obtain ⟨place, closesOperand, history, hh, hat, hc⟩ := hf.current word hw
    obtain ⟨tokens, ht⟩ := hf.tiled
    rw [hh] at ht
    obtain ⟨others, hback⟩ := ht.back
    obtain ⟨front, hs, -⟩ := hback.splits
    obtain ⟨-, -, hne, rest, hp⟩ := hat.spans
    rw [hc, Cursor.advance, ← hp, List.drop_left] at hr
    subst hr
    dsimp only at hs
    rw [hs, ← hp, List.append_nil, List.getLast?_append, Option.or_of_isSome]
    simpa using hne
  rcases h with ⟨hbit, word, hw, hk⟩ | ⟨word, hw, hk⟩
  · rw [hbit, hlast hw]
    exact iff_of_false (getLast?_of_at (hf.rewound_at hw).1 hk) Bool.false_ne_true.symm
  · have hrules : ∀ rule ∈ Rule.table, rule.kind = .closeBrace → rule.pattern = .punctuators ["\x7d"] := by
      decide
    obtain ⟨⟨hraw, hvalue⟩, -⟩ := (hf.rewound_at hw).1.of_spelling hk (by decide) (by decide) hrules
    have hbit : lexer.afterOperand = false := by
      have hclose : TokenKind.closesOperand .closeBrace = false := rfl
      have hupdate : Operator.isUpdate "\x7d" = false := by decide
      have hchunk : (TokenKind.closeBrace == .templateChunk) = false := rfl
      simp [hm word hw, hk, hvalue, hclose, hupdate, hchunk]
    rw [hbit, hlast hw, hraw]
    exact ⟨fun _ => rfl, fun _ => rfl⟩

end Lexer

end ScriptTree
