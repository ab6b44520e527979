import ScriptTree.Proofs.Exhaustion
import ScriptTree.Proofs.FirstCharacter

/-!
What a lexical rule matches is the beginning of the text.

Each form is gone through once; a rule of the table, and the first rule that matches, follow. So a
token is a piece of the text, and the cursor moves over exactly that piece.
-/

namespace ScriptTree

theorem eq_append_of_afterSpelling? {spelling text rest : List Char}
    (h : afterSpelling? spelling text = some rest) : text = spelling ++ rest := by
  induction spelling generalizing text with
  | nil =>
    rw [afterSpelling?, Option.some.injEq] at h
    exact h
  | cons s spelling ih =>
    cases text with
    | nil => cases h
    | cons c text =>
      rw [afterSpelling?] at h
      split at h
      · rename_i he
        rw [he, ih h, List.cons_append]
      · cases h

theorem eq_append_of_afterWord? {word text rest : List Char}
    (h : afterWord? word text = some rest) : text = word ++ rest := by
  rw [afterWord?, Option.filter_eq_some_iff] at h
  exact eq_append_of_afterSpelling? h.1

theorem leadingSpace_append (text : List Char) : leadingSpace text ++ afterSpace text = text :=
  List.takeWhile_append_dropWhile

theorem append_isPrefix {front piece text rest : List Char} (ht : text = front ++ rest)
    (h : piece <+: rest) : front ++ piece <+: text := by
  rw [ht]
  exact (List.prefix_append_right_inj front).mpr h

theorem cons_isPrefix {c : Char} {piece text : List Char} (h : piece <+: text) :
    c :: piece <+: c :: text :=
  List.cons_prefix_cons.mpr ⟨rfl, h⟩

namespace Scan

variable {text : List Char}

theorem starOrBoundary?_isPrefix {star : List Char} (h : starOrBoundary? text = some star) :
    star <+: text := by
  unfold starOrBoundary? at h
  split at h
  · rename_i rest hs
    cases h
    refine ⟨rest, ?_⟩
    rw [List.append_assoc, List.singleton_append, ← hs, leadingSpace_append]
  · split at h
    · cases h
      exact List.nil_prefix
    · cases h

theorem plainFunction?_isPrefix {head : List Char} (h : plainFunction? text = some head) :
    head <+: text := by
  simp only [plainFunction?, Option.bind_eq_bind, Option.bind_eq_some_iff, Option.some.injEq] at h
  obtain ⟨rest, hr, star, hs, rfl⟩ := h
  exact append_isPrefix (eq_append_of_afterSpelling? hr) (starOrBoundary?_isPrefix hs)

theorem functionHead_isPrefix {lexeme : Lexeme} (h : functionHead text = some lexeme) :
    lexeme.raw <+: text := by
  unfold functionHead at h
  split at h
  · rename_i rest hr
    split at h
    · cases h
    · obtain ⟨head, hh, rfl⟩ := Option.map_eq_some_iff.mp h
      simp only [Lexeme.raw, Lexeme.whole, List.nil_append, List.append_nil, List.append_assoc]
      refine append_isPrefix (eq_append_of_afterSpelling? hr) ?_
      exact append_isPrefix (leadingSpace_append rest).symm (plainFunction?_isPrefix hh)
  · obtain ⟨head, hh, rfl⟩ := Option.map_eq_some_iff.mp h
    simpa [Lexeme.raw, Lexeme.whole] using plainFunction?_isPrefix hh

theorem yieldHead_isPrefix {lexeme : Lexeme} (h : yieldHead text = some lexeme) :
    lexeme.raw <+: text := by
  simp only [yieldHead, Option.bind_eq_bind, Option.bind_eq_some_iff, Option.some.injEq] at h
  obtain ⟨rest, hr, star, hs, rfl⟩ := h
  simp only [Lexeme.raw, Lexeme.whole, List.nil_append, List.append_nil]
  exact append_isPrefix (eq_append_of_afterSpelling? hr) (starOrBoundary?_isPrefix hs)

theorem eq_append_of_forWords? {words rest : List Char} (h : forWords? text = some (words, rest)) :
    text = words ++ rest := by
  simp only [forWords?, Option.bind_eq_bind, Option.bind_eq_some_iff] at h
  obtain ⟨behind, hb, h⟩ := h
  have ht := eq_append_of_afterWord? hb
  split at h
  · cases h
    exact ht
  · split at h
    · rename_i last hl
      cases h
      -- the white space and the second word lie between the first word and the rest
      rw [ht, List.append_assoc, List.append_assoc, ← eq_append_of_afterWord? hl,
        leadingSpace_append]
    · cases h
      exact ht

theorem forHead_isPrefix {lexeme : Lexeme} (h : forHead text = some lexeme) :
    lexeme.raw <+: text := by
  simp only [forHead, Option.bind_eq_bind, Option.bind_eq_some_iff] at h
  obtain ⟨⟨words, rest⟩, hw, h⟩ := h
  dsimp only at h
  split at h
  · rename_i behind hs
    cases h
    refine ⟨behind, ?_⟩
    rw [eq_append_of_forWords? hw]
    simp only [Lexeme.raw, List.nil_append, List.append_assoc, List.singleton_append]
    rw [← hs, leadingSpace_append]
  · cases h

theorem wordBeforeSpace_isPrefix {words : List (List Char)} {lexeme : Lexeme}
    (h : wordBeforeSpace words text = some lexeme) : lexeme.raw <+: text := by
  obtain ⟨word, -, hw⟩ := List.exists_of_findSome?_eq_some h
  split at hw
  · rename_i c rest hr
    split at hw
    · cases hw
      simp only [Lexeme.raw, Lexeme.whole, List.nil_append, List.append_nil]
      exact ⟨_, (eq_append_of_afterWord? hr).symm⟩
    · cases hw
  · cases hw

theorem exportDefault_isPrefix {lexeme : Lexeme} (h : exportDefault text = some lexeme) :
    lexeme.raw <+: text := by
  simp only [exportDefault, Option.bind_eq_bind, Option.bind_eq_some_iff] at h
  obtain ⟨rest, hr, h⟩ := h
  split at h
  · cases h
  · obtain ⟨behind, hb, he⟩ := Option.bind_eq_some_iff.mp h
    cases he
    simp only [Lexeme.raw, Lexeme.whole, List.nil_append, List.append_nil, List.append_assoc]
    refine append_isPrefix (eq_append_of_afterWord? hr) ?_
    exact append_isPrefix (leadingSpace_append rest).symm ⟨behind, (eq_append_of_afterWord? hb).symm⟩

theorem name?_isPrefix {name : List Char} (h : name? text = some name) : name <+: text := by
  cases text with
  | nil => cases h
  | cons c text =>
    rw [name?] at h
    split at h
    · cases h
      exact cons_isPrefix (List.takeWhile_prefix _)
    · cases h

theorem identifier_isPrefix {lexeme : Lexeme} (h : identifier text = some lexeme) :
    lexeme.raw <+: text := by
  obtain ⟨name, hn, rfl⟩ := Option.map_eq_some_iff.mp h
  simpa [Lexeme.raw, Lexeme.whole] using name?_isPrefix hn

theorem jump_isPrefix {word : List Char} {lexeme : Lexeme} (h : jump word text = some lexeme) :
    lexeme.raw <+: text := by
  simp only [jump, Option.bind_eq_bind, Option.bind_eq_some_iff] at h
  obtain ⟨rest, hr, h⟩ := h
  have ht := eq_append_of_afterWord? hr
  -- without a label the word alone is matched
  have hw : (⟨word, [], []⟩ : Lexeme).raw <+: text := by
    simp only [Lexeme.raw, List.append_nil]
    exact ⟨rest, ht.symm⟩
  split at h
  · cases h
    exact hw
  · split at h
    · rename_i label hl
      cases h
      simp only [Lexeme.raw, List.append_nil, List.append_assoc]
      refine append_isPrefix ht ?_
      exact append_isPrefix List.takeWhile_append_dropWhile.symm (name?_isPrefix hl)
    · cases h
      exact hw

theorem commentTail?_isPrefix {tail : List Char} (h : commentTail? text = some tail) :
    tail <+: text := by
  fun_induction commentTail? text generalizing tail with
  | case1 => cases h
  | case2 text =>
    cases h
    exact ⟨text, rfl⟩
  | case3 c text _ ih =>
    obtain ⟨tail, ht, rfl⟩ := Option.map_eq_some_iff.mp h
    exact cons_isPrefix (ih ht)

theorem blockComment_isPrefix {lexeme : Lexeme} (h : blockComment text = some lexeme) :
    lexeme.raw <+: text := by
  unfold blockComment at h
  split at h
  · obtain ⟨tail, ht, rfl⟩ := Option.map_eq_some_iff.mp h
    simp only [Lexeme.raw, Lexeme.whole, List.nil_append, List.append_nil]
    exact cons_isPrefix (cons_isPrefix (commentTail?_isPrefix ht))
  · cases h

theorem lineComment_isPrefix {lexeme : Lexeme} (h : lineComment text = some lexeme) :
    lexeme.raw <+: text := by
  unfold lineComment at h
  split at h
  · cases h
    simp only [Lexeme.raw, Lexeme.whole, List.nil_append, List.append_nil]
    exact cons_isPrefix (cons_isPrefix (List.takeWhile_prefix _))
  · cases h

/-- Behind the body of a regular expression stands its closing slash. -/
theorem regexBody?_isPrefix {inClass : Bool} {body : List Char}
    (h : regexBody? inClass text = some body) : body ++ ['/'] <+: text := by
  fun_induction regexBody? inClass text generalizing body with
  | case1 => cases h
  | case2 inClass c text ih =>
    obtain ⟨body, hb, rfl⟩ := Option.map_eq_some_iff.mp h
    exact cons_isPrefix (cons_isPrefix (ih hb))
  | case3 => cases h
  | case4 inClass c text _ _ _ ih | case5 inClass c text _ _ _ _ ih
  | case7 inClass c text _ _ _ _ _ ih =>
    obtain ⟨body, hb, rfl⟩ := Option.map_eq_some_iff.mp h
    exact cons_isPrefix (ih hb)
  | case6 inClass c text _ _ _ _ hc =>
    cases h
    rw [eq_of_beq (Bool.and_eq_true_iff.mp hc).1]
    exact ⟨text, rfl⟩

theorem regex_isPrefix {lexeme : Lexeme} (h : regex text = some lexeme) :
    lexeme.raw <+: text := by
  unfold regex at h
  split at h
  · split at h
    · cases h
    · rename_i body _ hb
      cases h
      obtain ⟨behind, ht⟩ := regexBody?_isPrefix hb
      subst ht
      have hd : (body ++ ['/'] ++ behind).drop (body.length + 1) = behind := by simp
      simp only [hd, Lexeme.raw, Lexeme.whole, List.nil_append, List.append_nil, List.cons_append]
      refine cons_isPrefix (append_isPrefix (List.append_assoc _ _ _) ?_)
      exact cons_isPrefix (List.takeWhile_prefix _)
    · cases h
  · cases h

theorem radixInteger?_isPrefix {digits : List Char} (h : radixInteger? text = some digits) :
    digits <+: text := by
  unfold radixInteger? at h
  split at h
  · simp only [Option.bind_eq_bind, Option.bind_eq_some_iff] at h
    obtain ⟨isDigit, -, h⟩ := h
    split at h
    · cases h
    · cases h
      exact cons_isPrefix (cons_isPrefix (List.takeWhile_prefix _))
  · cases h

theorem mantissa?_isPrefix {mantissa : List Char} (h : mantissa? text = some mantissa) :
    mantissa <+: text := by
  unfold mantissa? at h
  dsimp only at h
  split at h
  · rename_i rest hr
    split at h
    · cases h
    · cases h
      refine append_isPrefix List.takeWhile_append_dropWhile.symm ?_
      rw [hr]
      exact cons_isPrefix (List.takeWhile_prefix _)
  · split at h
    · cases h
    · cases h
      exact List.takeWhile_prefix _

theorem exponent_isPrefix (text : List Char) : exponent text <+: text := by
  unfold exponent
  split
  · exact List.nil_prefix
  · rename_i mark text
    -- the sign, if there is one, is the first character behind the mark
    have hs (sign digits : List Char) (h : sign ++ digits <+: text) :
        (if digits.isEmpty then [] else mark :: sign ++ digits) <+: mark :: text := by
      split
      · exact List.nil_prefix
      · exact cons_isPrefix h
    split
    · dsimp only
      split
      · exact hs _ _ (cons_isPrefix (List.takeWhile_prefix _))
      · exact hs _ _ (cons_isPrefix (List.takeWhile_prefix _))
      · exact hs _ _ (List.takeWhile_prefix _)
    · exact List.nil_prefix

theorem numeral?_isPrefix {numeral : List Char} (h : numeral? text = some numeral) :
    numeral <+: text := by
  unfold numeral? at h
  split at h
  · rename_i digits hd
    cases h
    exact radixInteger?_isPrefix hd
  · obtain ⟨mantissa, hm, rfl⟩ := Option.map_eq_some_iff.mp h
    obtain ⟨behind, ht⟩ := mantissa?_isPrefix hm
    have hd : text.drop mantissa.length = behind := by rw [← ht, List.drop_left]
    rw [hd]
    exact append_isPrefix ht.symm (exponent_isPrefix behind)

theorem number_isPrefix {lexeme : Lexeme} (h : number text = some lexeme) :
    lexeme.raw <+: text := by
  unfold number at h
  split at h
  · rename_i numeral hn
    have hp : (Lexeme.whole numeral).raw <+: text := by
      simpa [Lexeme.raw, Lexeme.whole] using numeral?_isPrefix hn
    split at h
    · split at h
      · cases h
      · cases h
        exact hp
    · cases h
      exact hp
  · cases h

/-- Behind the contents of a string stands its closing quote. -/
theorem stringBody?_isPrefix {quote : Char} {body : List Char}
    (h : stringBody? quote text = some body) : body ++ [quote] <+: text := by
  fun_induction stringBody? quote text generalizing body with
  | case1 => cases h
  | case2 c text ih =>
    obtain ⟨body, hb, rfl⟩ := Option.map_eq_some_iff.mp h
    exact cons_isPrefix (cons_isPrefix (ih hb))
  | case3 => cases h
  | case4 c text _ _ hq =>
    cases h
    rw [eq_of_beq hq]
    exact ⟨text, rfl⟩
  | case5 c text _ _ _ ih =>
    obtain ⟨body, hb, rfl⟩ := Option.map_eq_some_iff.mp h
    exact cons_isPrefix (ih hb)

theorem string_isPrefix {lexeme : Lexeme} (h : string text = some lexeme) :
    lexeme.raw <+: text := by
  unfold string at h
  split at h
  · split at h
    · obtain ⟨body, hb, rfl⟩ := Option.map_eq_some_iff.mp h
      exact cons_isPrefix (stringBody?_isPrefix hb)
    · cases h
  · cases h

theorem templateBody?_isPrefix {body stop : List Char}
    (h : templateBody? text = some (body, stop)) : body ++ stop <+: text := by
  fun_induction templateBody? text generalizing body stop with
  | case1 => cases h
  | case2 c text ih =>
    obtain ⟨⟨body, stop⟩, hb, he⟩ := Option.map_eq_some_iff.mp h
    cases he
    exact cons_isPrefix (cons_isPrefix (ih hb))
  | case3 text =>
    cases h
    exact ⟨text, rfl⟩
  | case4 => cases h
  | case5 c text _ _ _ hc =>
    cases h
    rw [eq_of_beq hc]
    exact ⟨text, rfl⟩
  | case6 c text _ _ _ _ ih =>
    obtain ⟨⟨body, stop⟩, hb, he⟩ := Option.map_eq_some_iff.mp h
    cases he
    exact cons_isPrefix (ih hb)

theorem templateChunk_isPrefix {lexeme : Lexeme} (h : templateChunk text = some lexeme) :
    lexeme.raw <+: text := by
  obtain ⟨⟨body, stop⟩, hb, rfl⟩ := Option.map_eq_some_iff.mp h
  simpa [Lexeme.raw] using templateBody?_isPrefix hb

theorem lineFeed_isPrefix {lexeme : Lexeme} (h : lineFeed text = some lexeme) :
    lexeme.raw <+: text := by
  unfold lineFeed at h
  split at h
  · rename_i rest
    cases h
    exact ⟨rest, rfl⟩
  · cases h

theorem run_isPrefix {isMember : Char → Bool} {lexeme : Lexeme}
    (h : run isMember text = some lexeme) : lexeme.raw <+: text := by
  unfold run at h
  dsimp only at h
  split at h
  · cases h
  · cases h
    simpa [Lexeme.raw, Lexeme.whole] using List.takeWhile_prefix (l := text) isMember

end Scan

theorem LexicalForm.match?_isPrefix {form : LexicalForm} {text : List Char} {lexeme : Lexeme}
    (h : form.match? text = some lexeme) : lexeme.raw <+: text := by
  cases form with
  | functionHead => exact Scan.functionHead_isPrefix h
  | yieldHead => exact Scan.yieldHead_isPrefix h
  | forHead => exact Scan.forHead_isPrefix h
  | relationalWord | importWord => exact Scan.wordBeforeSpace_isPrefix h
  | continueJump | breakJump => exact Scan.jump_isPrefix h
  | exportDefault => exact Scan.exportDefault_isPrefix h
  | blockComment => exact Scan.blockComment_isPrefix h
  | lineComment => exact Scan.lineComment_isPrefix h
  | regex => exact Scan.regex_isPrefix h
  | number => exact Scan.number_isPrefix h
  | identifier => exact Scan.identifier_isPrefix h
  | string => exact Scan.string_isPrefix h
  | templateChunk => exact Scan.templateChunk_isPrefix h
  | lineFeed => exact Scan.lineFeed_isPrefix h
  | inlineSpace | space => exact Scan.run_isPrefix h

theorem Pattern.apply_isPrefix {pattern : Pattern} {text : List Char} {lexeme : Lexeme}
    (h : pattern.apply text = some lexeme) : lexeme.raw <+: text := by
  cases pattern with
  | words spellings =>
    obtain ⟨word, hw, rfl⟩ := Option.map_eq_some_iff.mp h
    have hs : (afterWord? word.toList text).isSome = true := by simpa using List.find?_some hw
    obtain ⟨rest, hr⟩ := Option.isSome_iff_exists.mp hs
    rw [eq_append_of_afterWord? hr]
    simp [Lexeme.raw, Lexeme.whole]
  | punctuators spellings =>
    obtain ⟨word, hw, rfl⟩ := Option.map_eq_some_iff.mp h
    have hs : (afterSpelling? word.toList text).isSome = true := by simpa using List.find?_some hw
    obtain ⟨rest, hr⟩ := Option.isSome_iff_exists.mp hs
    rw [eq_append_of_afterSpelling? hr]
    simp [Lexeme.raw, Lexeme.whole]
  | form lexical => exact lexical.match?_isPrefix h

namespace Rule

/-- What the first matching rule comes to: a rule that is tried in the mode, with what its pattern
matches. -/
theorem applies_of_first {mode : LexerMode} {afterOperand : Bool} {text : List Char} {rule : Rule}
    {lexeme : Lexeme} (h : first? mode afterOperand text = some (rule, lexeme)) :
    rule.pattern.apply text = some lexeme ∧
      (mode.template = true ∧ rule = templateChunk ∨
        mode.template = false ∧ rule ∈ table ∧ rule.appliesIn mode afterOperand = true) := by
  have matched {candidate : Rule} (hm : candidate.match? text = some (rule, lexeme)) :
      rule = candidate ∧ rule.pattern.apply text = some lexeme := by
    simp only [match?, Option.map_eq_some_iff, Option.filter_eq_some_iff] at hm
    obtain ⟨l, ⟨hl, -⟩, he⟩ := hm
    cases he
    exact ⟨rfl, hl⟩
  unfold first? at h
  split at h
  · rename_i ht
    obtain ⟨rfl, ha⟩ := matched h
    exact ⟨ha, Or.inl ⟨ht, rfl⟩⟩
  · rename_i ht
    obtain ⟨candidate, hin, hc⟩ := List.exists_of_findSome?_eq_some h
    split at hc
    · rename_i happ
      obtain ⟨rfl, ha⟩ := matched hc
      exact ⟨ha, Or.inr ⟨by simpa using ht, hin, happ⟩⟩
    · cases hc

theorem first?_isPrefix {mode : LexerMode} {afterOperand : Bool} {text : List Char} {rule : Rule}
    {lexeme : Lexeme} (h : first? mode afterOperand text = some (rule, lexeme)) :
    lexeme.raw <+: text :=
  Pattern.apply_isPrefix (applies_of_first h).1

end Rule

end ScriptTree
