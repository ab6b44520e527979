import ScriptTree.Printer.Print
import ScriptTree.Proofs.ModuleReading

/-!
Strings survive printing. What stood between two quotes of one kind is printed between the preferred
quotes, or between the others if a preferred one would end it too early.
-/

namespace ScriptTree

namespace Scan

variable {quote other : Char} {text body : List Char}

/-- A quote that ends a string does not stand bare in it. -/
theorem holdsBare_of_stringBody? (h : stringBody? quote text = some body) :
    Printer.holdsBare quote body = false := by
  fun_induction stringBody? quote text generalizing body with
  | case1 | case3 => cases h
  | case2 c text ih =>
    obtain ⟨body, hb, rfl⟩ := Option.map_eq_some_iff.mp h
    rw [Printer.holdsBare.eq_2, ih hb]
  | case4 =>
    cases h
    rfl
  | case5 c text _ hc hcq ih =>
    obtain ⟨body, hb, rfl⟩ := Option.map_eq_some_iff.mp h
    rw [Printer.holdsBare.eq_3 _ _ _ (by grind), ih hb, Bool.or_false]
    simpa using hcq

/-- What stands between two of a quote can stand between two of another one, unless that one stands
bare in it. -/
theorem stringBody?_of_holdsBare (h : stringBody? quote text = some body)
    (hb : Printer.holdsBare other body = false)
    (ho : (other == '\\' || other == '\n' || other == '\r') = false) (rest : List Char) :
    stringBody? other (body ++ other :: rest) = some body := by
  fun_induction stringBody? quote text generalizing body with
  | case1 | case3 => cases h
  | case2 c text ih =>
    obtain ⟨body, hbody, rfl⟩ := Option.map_eq_some_iff.mp h
    rw [List.cons_append, List.cons_append, stringBody?.eq_2, ih hbody hb, Option.map_some]
  | case4 =>
    cases h
    rw [List.nil_append, stringBody?.eq_3 _ _ _ (by grind), if_neg (by simp [ho]), if_pos (by simp)]
  | case5 c text _ hc hcq ih =>
    obtain ⟨body, hbody, rfl⟩ := Option.map_eq_some_iff.mp h
    rw [Printer.holdsBare.eq_3 _ _ _ (by grind), Bool.or_eq_false_iff] at hb
    rw [List.cons_append, stringBody?.eq_3 _ _ _ (by grind), if_neg hc, if_neg (by simp [hb.1]),
      ih hbody hb.2, Option.map_some]

end Scan

/-- The contents of some string. -/
def IsStringValue (contents : List Char) : Prop :=
  ∃ text lexeme, Scan.string text = some lexeme ∧ lexeme.value = contents

namespace Printer

theorem quote_cases (quote : Quote) {c : Char} (h : c = '\x27' ∨ c = '\x22') :
    c = quote.char ∨ c = quote.other.char := by
  cases quote
  · exact h
  · exact h.symm

/-- The quote that the printer takes for a string can stand around it. -/
theorem exists_quotable (options : PrinterOptions) {contents : String}
    (h : IsStringValue contents.toList) :
    ∃ quote, IsQuotable quote contents.toList ∧
      (quoted options contents).toList = quotedText quote contents.toList := by
  obtain ⟨text, lexeme, hs, hv⟩ := h
  obtain ⟨original, inner, hb, ho⟩ : ∃ original inner,
      Scan.stringBody? original inner = some contents.toList ∧
        (original = '\x27' ∨ original = '\x22') := by
    unfold Scan.string at hs
    split at hs
    · rename_i quote inner
      split at hs
      · rename_i hq
        obtain ⟨body, hb, rfl⟩ := Option.map_eq_some_iff.mp hs
        exact ⟨quote, inner, hv ▸ hb, by simpa using hq⟩
      · cases hs
    · cases hs
  have hmark : options.quote.char = '\x27' ∨ options.quote.char = '\x22' := by
    cases options.quote
    · exact Or.inl rfl
    · exact Or.inr rfl
  by_cases hd : holdsBare options.quote.char contents.toList = true
  · -- then it was read between the other quotes
    have horiginal : original = options.quote.other.char := by
      refine (quote_cases options.quote ho).resolve_left ?_
      rintro rfl
      rw [Scan.holdsBare_of_stringBody? hb] at hd
      cases hd
    have hplain : (original == '\\' || original == '\n' || original == '\r') = false := by
      rcases ho with rfl | rfl <;> rfl
    refine ⟨original, ⟨ho, Scan.stringBody?_again hb hplain []⟩, ?_⟩
    simp [quoted, hd, quotedText, horiginal]
  · rw [Bool.not_eq_true] at hd
    have hplain : (options.quote.char == '\\' || options.quote.char == '\n' ||
        options.quote.char == '\r') = false := by
      rcases hmark with h | h <;> rw [h] <;> rfl
    refine ⟨options.quote.char, ⟨hmark, Scan.stringBody?_of_holdsBare hb hd hplain []⟩, ?_⟩
    simp [quoted, hd, quotedText]

end Printer

open Printer in
/-- A string that was read once is read again from what the printer makes of it, whichever quotes are
preferred and whatever its spelling was: one token, with the same contents, that ends where the
printed text ends. -/
theorem Lexer.next_literalText {text : List Char} {lexeme : Lexeme}
    (hs : Scan.string text = some lexeme) (options : PrinterOptions) (raw : String)
    (rest : List Char) (lexer : Lexer)
    (hr : lexer.cursor.rest =
      (literalText options (.string (String.ofList lexeme.value)) raw).toList ++ rest) :
    (lexer.next .default).current = some
        { kind := .stringLiteral
          value := String.ofList lexeme.value
          raw := literalText options (.string (String.ofList lexeme.value)) raw
          start := lexer.cursor.offset
          stop := lexer.cursor.offset +
            byteLength (literalText options (.string (String.ofList lexeme.value)) raw).toList
          precedence := none
          afterNewline := false } ∧
      (lexer.next .default).cursor.rest = rest := by
  have hl : literalText options (.string (String.ofList lexeme.value)) raw =
      quoted options (String.ofList lexeme.value) := rfl
  rw [hl] at hr ⊢
  have hvalue : IsStringValue (String.ofList lexeme.value).toList :=
    ⟨text, lexeme, hs, String.toList_ofList.symm⟩
  obtain ⟨quote, hq, ht⟩ := exists_quotable options hvalue
  rw [String.toList_ofList] at hq ht
  have hf := hq.first? lexer.afterOperand rest
  rw [← ht, ← hr] at hf
  have hne : ¬lexer.cursor.rest.isEmpty = true := by simp [hr, ht, quotedText]
  have hn : lexer.next .default = lexer.emit lexer.cursor .stringLiteral
      ⟨[quote], lexeme.value, [quote]⟩ none false := by
    rw [next, seek, if_neg hne, hf]
    rfl
  have hraw : Lexeme.raw ⟨[quote], lexeme.value, [quote]⟩ =
      (quoted options (String.ofList lexeme.value)).toList := by
    rw [ht]
    rfl
  rw [hn]
  constructor
  · simp only [emit, hraw, String.ofList_toList, Cursor.advance]
  · simp only [emit, hraw, Cursor.advance, hr, List.drop_left]

/-- A quotation mark that stood bare between apostrophes keeps them, and the escaped apostrophe
behind it does no harm. -/
theorem Lexer.next_literalText_mixed :
    ((ofText ("'é\"\\'\\\\'".toList ++ "+ a".toList)).next .default).current = some
        ⟨.stringLiteral, "é\"\\'\\\\", "'é\"\\'\\\\'", 0, 9, none, false⟩ := by
  have hs : Scan.string "'é\"\\'\\\\' is read".toList =
      some ⟨['\x27'], "é\"\\'\\\\".toList, ['\x27']⟩ := by decide
  exact (next_literalText hs {} "" "+ a".toList (ofText ("'é\"\\'\\\\'".toList ++ "+ a".toList))
    (by decide)).1

end ScriptTree
