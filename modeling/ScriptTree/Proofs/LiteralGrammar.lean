import ScriptTree.Proofs.ByteStream
import ScriptTree.Proofs.TemplateReading

/-!
The grammars of strings and of template text, and the scanners that read them byte by byte.

Both kinds of contents are sequences of items: a backslash with whatever character is behind it, or a
character by itself. The scanners look at single bytes, and behind a backslash they may come to stand
inside a character. Still they find just what the grammars say, at offsets between characters.
-/

namespace ScriptTree

/-- The contents of a string between two of a quote, item by item. -/
inductive StringItems (quote : Char) : List Char → Prop
  | nothing : StringItems quote []
  /-- A backslash with the character behind it, also a line break or a quote. -/
  | escape (c : Char) {items : List Char} : StringItems quote items →
    StringItems quote ('\\' :: c :: items)
  /-- A character by itself. -/
  | plain {c : Char} {items : List Char} : c ≠ quote → c ≠ '\\' → c ≠ '\n' → c ≠ '\r' →
    StringItems quote items → StringItems quote (c :: items)

/-- The contents of template text, item by item, and the text behind them. -/
inductive TemplateItems : List Char → List Char → Prop
  | nothing (behind : List Char) : TemplateItems [] behind
  /-- A backslash with the character behind it. -/
  | escape (c : Char) {items behind : List Char} : TemplateItems items behind →
    TemplateItems ('\\' :: c :: items) behind
  /-- A character by itself. A dollar sign is one where it opens no substitution. -/
  | plain {c : Char} {items behind : List Char} : c ≠ '\\' → c ≠ '\x60' →
    ¬['$', '\x7b'] <+: c :: (items ++ behind) → TemplateItems items behind →
    TemplateItems (c :: items) behind

/-- A string at the start of a text: a quote, the contents, which are the value, and the quote
again; and the text behind it. -/
inductive StringSplit : List Char → Lexeme → List Char → Prop
  | intro {quote : Char} {contents : List Char} (rest : List Char) :
    quote = '\x27' ∨ quote = '\x22' → StringItems quote contents →
    StringSplit (quote :: (contents ++ quote :: rest)) ⟨[quote], contents, [quote]⟩ rest

/-- Template text at the start of a text: the contents, which are the value, and a backtick or the
opening of a substitution; and the text behind it. -/
inductive TemplateSplit : List Char → Lexeme → List Char → Prop
  | intro {contents stop : List Char} (rest : List Char) :
    stop = ['\x60'] ∨ stop = ['$', '\x7b'] → TemplateItems contents (stop ++ rest) →
    TemplateSplit (contents ++ (stop ++ rest)) ⟨[], contents, stop⟩ rest

/-- A scanner on bytes finds the splits of a text. It succeeds where there is a split, there is never
more than one, and the offsets that it gives stand between characters, around the parts of the
split. -/
structure FindsSplit (Split : Lexeme → List Char → Prop) (text : List Char) (found : Option Extent) :
    Prop where
  succeeds : found.isSome = true ↔ ∃ lexeme rest, Split lexeme rest
  unique : ∀ lexeme rest lexeme' rest', Split lexeme rest → Split lexeme' rest' →
    lexeme = lexeme' ∧ rest = rest'
  offsets : ∀ extent, found = some extent → ∃ lexeme rest, Split lexeme rest ∧
    takeBytes? extent.size text = some lexeme.raw ∧ dropBytes? extent.size text = some rest ∧
    sliceBytes? extent.valueStart extent.valueStop text = some lexeme.value

/-- It is enough that the scanner on characters finds the lexemes of splits, and that a split makes up
the text. -/
theorem FindsSplit.of_lexemes {Split : Lexeme → List Char → Prop} {text : List Char}
    {found : Option Lexeme} (hfound : ∀ lexeme, found = some lexeme ↔ ∃ rest, Split lexeme rest)
    (hwhole : ∀ lexeme rest, Split lexeme rest → text = lexeme.raw ++ rest) :
    FindsSplit Split text (found.map Lexeme.extent) where
  succeeds := by
    rw [Option.isSome_map, Option.isSome_iff_exists]
    exact exists_congr hfound
  unique := by
    intro lexeme rest lexeme' rest' hs hs'
    -- both lexemes are what is found, and so the texts behind them are the same
    have hsame : some lexeme = some lexeme' :=
      ((hfound lexeme).mpr ⟨rest, hs⟩).symm.trans ((hfound lexeme').mpr ⟨rest', hs'⟩)
    obtain rfl := Option.some.inj hsame
    exact ⟨rfl, List.append_cancel_left ((hwhole _ _ hs).symm.trans (hwhole _ _ hs'))⟩
  offsets := by
    intro extent he
    obtain ⟨lexeme, hl, rfl⟩ := Option.map_eq_some_iff.mp he
    obtain ⟨rest, hs⟩ := (hfound lexeme).mp hl
    obtain rfl := hwhole lexeme rest hs
    obtain ⟨htake, hslice⟩ := ByteStream.slices_of_isPrefix (List.prefix_append lexeme.raw rest)
    exact ⟨lexeme, rest, hs, htake, dropBytes?_append lexeme.raw rest, hslice⟩

section Strings

variable {quote : Char} {text body rest : List Char} {lexeme : Lexeme}

/-- What is read up to a quote is made of items, by induction along the text. -/
theorem stringItems_of_stringBody? (h : Scan.stringBody? quote text = some body) :
    StringItems quote body := by
  fun_induction Scan.stringBody? quote text generalizing body with
  | case1 | case3 => cases h
  | case2 c text ih =>
    obtain ⟨body, hb, rfl⟩ := Option.map_eq_some_iff.mp h
    exact .escape c (ih hb)
  | case4 =>
    cases h
    exact .nothing
  | case5 c text _ hc hquote ih =>
    obtain ⟨body, hb, rfl⟩ := Option.map_eq_some_iff.mp h
    simp only [Bool.or_eq_true, beq_iff_eq, not_or] at hc hquote
    exact .plain hquote hc.1.1 hc.1.2 hc.2 (ih hb)

/-- Items are read up to the quote behind them, by induction along the items. -/
theorem StringItems.stringBody? (h : StringItems quote body)
    (hq : (quote == '\\' || quote == '\n' || quote == '\r') = false) (rest : List Char) :
    Scan.stringBody? quote (body ++ quote :: rest) = some body := by
  induction h with
  | nothing =>
    have hescape : quote ≠ '\\' := by
      rintro rfl
      exact absurd hq (by decide)
    rw [List.nil_append, Scan.stringBody?.eq_3 _ _ _ fun _ _ hc _ => hescape hc, hq]
    simp
  | escape c _ ih => simp only [List.cons_append, Scan.stringBody?, ih, Option.map_some]
  | plain hquote hescape hfeed hreturn _ ih =>
    rw [List.cons_append, Scan.stringBody?.eq_3 _ _ _ fun _ _ hc _ => hescape hc]
    simp [hquote, hescape, hfeed, hreturn, ih]

/-- What is found as a string is one. -/
theorem string_eq_some_iff : Scan.string text = some lexeme ↔ ∃ rest, StringSplit text lexeme rest := by
  constructor
  · intro h
    unfold Scan.string at h
    split at h
    · rename_i quote text
      split at h
      · rename_i hquote
        obtain ⟨body, hb, rfl⟩ := Option.map_eq_some_iff.mp h
        obtain ⟨rest, rfl⟩ := Scan.stringBody?_isPrefix hb
        rw [Bool.or_eq_true, beq_iff_eq, beq_iff_eq] at hquote
        refine ⟨rest, ?_⟩
        rw [List.append_assoc]
        exact .intro rest hquote (stringItems_of_stringBody? hb)
      · cases h
    · cases h
  · rintro ⟨rest, hs⟩
    cases hs with
    | @intro quote contents _ hquote hitems =>
      have hplain : (quote == '\\' || quote == '\n' || quote == '\r') = false := by
        rcases hquote with rfl | rfl <;> rfl
      have heither : (quote == '\x27' || quote == '\x22') = true := by simpa using hquote
      rw [Scan.string, if_pos heither, hitems.stringBody? hplain rest, Option.map_some]

theorem StringSplit.whole (h : StringSplit text lexeme rest) : text = lexeme.raw ++ rest := by
  cases h
  simp [Lexeme.raw]

end Strings

section Templates

variable {text contents stop rest : List Char} {lexeme : Lexeme}

/-- A piece of a template is made of items, whatever ends it, by induction along it. -/
theorem isTemplatePiece_iff (hs : stop ∈ pieceEnds) :
    isTemplatePiece contents = true ↔ TemplateItems contents (stop ++ rest) := by
  obtain ⟨first, others, rfl, hfirst⟩ := head?_of_pieceEnds hs
  constructor
  · intro h
    fun_induction isTemplatePiece contents with
    | case1 => exact .nothing _
    | case2 => cases h
    | case3 c text ih => exact .escape c (ih h)
    | case4 c text hescape ih =>
      simp only [Bool.and_eq_true, bne_iff_ne, ne_eq, Bool.not_eq_true', Bool.and_eq_false_iff,
        beq_eq_false_iff_ne] at h
      obtain ⟨⟨hmark, hdollar⟩, h⟩ := h
      refine .plain hescape hmark ?_ (ih h)
      intro hopens
      obtain ⟨rfl, hbrace⟩ := List.cons_prefix_cons.mp hopens
      -- the brace would stand in the piece, or be the first character of what ends it
      cases text with
      | nil => exact hfirst (List.cons_prefix_cons.mp hbrace).1.symm
      | cons d text =>
        obtain ⟨rfl, -⟩ := List.cons_prefix_cons.mp hbrace
        exact hdollar.elim (fun hne => hne rfl) fun hne => hne rfl
  · intro h
    generalize first :: others ++ rest = behind at h
    induction h with
    | nothing => rfl
    | escape c _ ih => exact ih
    | @plain c items behind hescape hmark hopens _ ih =>
      have hdollar : (c == '$' && items.head? == some '\x7b') = false := by
        rw [Bool.and_eq_false_imp]
        intro hd
        refine beq_eq_false_iff_ne.mpr fun hh => hopens ?_
        obtain ⟨items, rfl⟩ := List.head?_eq_some_iff.mp hh
        rw [eq_of_beq hd]
        exact List.prefix_append ['$', '\x7b'] (items ++ behind)
      rw [isTemplatePiece.eq_4 _ _ hescape, ih, hdollar]
      simpa using hmark

/-- What is found as template text is such. -/
theorem templateChunk_eq_some_iff :
    Scan.templateChunk text = some lexeme ↔ ∃ rest, TemplateSplit text lexeme rest := by
  have hends (stop : List Char) : stop ∈ pieceEnds ↔ stop = ['\x60'] ∨ stop = ['$', '\x7b'] := by
    simp [pieceEnds]
  constructor
  · intro h
    obtain ⟨⟨contents, stop⟩, hb, rfl⟩ := Option.map_eq_some_iff.mp h
    obtain ⟨hpiece, hs, rest, rfl⟩ := templateBody?_eq_some_iff.mp hb
    refine ⟨rest, ?_⟩
    rw [List.append_assoc]
    exact .intro rest ((hends stop).mp hs) ((isTemplatePiece_iff hs).mp hpiece)
  · rintro ⟨rest, h⟩
    cases h with
    | @intro contents stop _ hstop hitems =>
      have hs := (hends stop).mpr hstop
      rw [Scan.templateChunk, templateBody?_piece ((isTemplatePiece_iff hs).mpr hitems) hs,
        Option.map_some]

theorem TemplateSplit.whole (h : TemplateSplit text lexeme rest) : text = lexeme.raw ++ rest := by
  cases h
  simp [Lexeme.raw]

end Templates

/-- The scanners on bytes find the strings and the pieces of template text of the grammars, and they
find what the scanners on characters do. -/
theorem ByteScan.findsSplit (text : List Char) :
    FindsSplit (StringSplit text) text (ByteScan.string text) ∧
      FindsSplit (TemplateSplit text) text (ByteScan.templateChunk text) ∧
      ByteScan.string text = (Scan.string text).map Lexeme.extent ∧
      ByteScan.templateChunk text = (Scan.templateChunk text).map Lexeme.extent := by
  have hstring := FindsSplit.of_lexemes (fun _ => string_eq_some_iff) fun _ _ hs =>
    @StringSplit.whole text _ _ hs
  have htemplate := FindsSplit.of_lexemes (fun _ => templateChunk_eq_some_iff) fun _ _ hs =>
    @TemplateSplit.whole text _ _ hs
  rw [← string_eq] at hstring
  rw [← templateChunk_eq] at htemplate
  exact ⟨hstring, htemplate, string_eq text, templateChunk_eq text⟩

end ScriptTree
