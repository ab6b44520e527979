import ScriptTree.Proofs.Exhaustion
import ScriptTree.Proofs.ShiftedStream

/-!
The tokens of a text, and those of the text with more behind it.

A stream over the longer text hands out the same tokens for as long as no reading sees what is behind
the text. A stream of which only parts of a name are left never comes to a closing bracket again.
-/

namespace ScriptTree

/-- The same place, with more text behind. -/
def Cursor.followedBy (place : Cursor) (tail : List Char) : Cursor :=
  ⟨place.offset, place.rest ++ tail⟩

/-- The same found, with more text behind. -/
def Sighting.followedBy (tail : List Char) : Sighting → Sighting
  | .token start kind lexeme precedence newline =>
    .token (start.followedBy tail) kind lexeme precedence newline
  | .stuck place => .stuck (place.followedBy tail)
  | .finished place => .finished (place.followedBy tail)

theorem Cursor.advance_followedBy {place : Cursor} {raw : List Char} (h : raw <+: place.rest)
    (tail : List Char) :
    (place.followedBy tail).advance raw = (place.advance raw).followedBy tail := by
  rw [followedBy, followedBy, advance, advance, List.drop_append_of_le_length h.length_le]

namespace Lexer

variable {tail : List Char} {mode : LexerMode} {lexer : Lexer}

/-- The same stream, with more text behind. -/
def followedBy (lexer : Lexer) (tail : List Char) : Lexer where
  source := lexer.source ++ tail
  cursor := lexer.cursor.followedBy tail
  current := lexer.current
  history := lexer.history.map fun record =>
    ⟨record.start.followedBy tail, record.closesOperand⟩
  exhausted := lexer.exhausted

@[simp] theorem followedBy_current : (lexer.followedBy tail).current = lexer.current := rfl

@[simp] theorem followedBy_exhausted : (lexer.followedBy tail).exhausted = lexer.exhausted := rfl

@[simp] theorem followedBy_rest :
    (lexer.followedBy tail).cursor.rest = lexer.cursor.rest ++ tail := rfl

@[simp] theorem followedBy_afterOperand :
    (lexer.followedBy tail).afterOperand = lexer.afterOperand := by
  obtain ⟨source, cursor, current, history, exhausted⟩ := lexer
  cases history <;> rfl

theorem ofText_followedBy (source tail : List Char) :
    (ofText source).followedBy tail = ofText (source ++ tail) := rfl

theorem followedBy_rewound : (lexer.followedBy tail).rewound = lexer.rewound.followedBy tail := by
  obtain ⟨source, cursor, current, history, exhausted⟩ := lexer
  cases current with
  | none => rfl
  | some word => cases history <;> rfl

/-- The next reading does not see what is behind the text: it finds the same with it, unless it comes
to the end of the text. -/
def Overlooks (lexer : Lexer) (tail : List Char) (mode : LexerMode) : Prop :=
  seek mode lexer.afterOperand ((lexer.cursor.rest ++ tail).length + 1)
      (lexer.cursor.followedBy tail) false =
    (seek mode lexer.afterOperand (lexer.cursor.rest.length + 1) lexer.cursor false).followedBy
      tail ∨
  ∃ stop, seek mode lexer.afterOperand (lexer.cursor.rest.length + 1) lexer.cursor false =
    .finished stop

/-- A reading that does not see what is behind the text. If it comes to the end of the text, it starts
right there. -/
structure Clear (lexer : Lexer) (tail : List Char) (mode : LexerMode) : Prop where
  overlooks : lexer.Overlooks tail mode
  ends : (lexer.next mode).exhausted = true → lexer.cursor.rest = []

/-- A stream at the end of its text. -/
structure Ended (lexer : Lexer) : Prop where
  current : lexer.current = none
  exhausted : lexer.exhausted = true
  rest : lexer.cursor.rest = []

theorem next_followedBy (h : lexer.Overlooks tail mode) :
    (lexer.followedBy tail).next mode = (lexer.next mode).followedBy tail ∨
      (lexer.next mode).Ended := by
  rcases h with hsame | ⟨stop, hstop⟩
  · left
    have hlead := seek_leads mode lexer.afterOperand (lexer.cursor.rest.length + 1) lexer.cursor false
    have hseek : seek mode (lexer.followedBy tail).afterOperand
        ((lexer.followedBy tail).cursor.rest.length + 1) (lexer.followedBy tail).cursor false =
          (seek mode lexer.afterOperand (lexer.cursor.rest.length + 1) lexer.cursor false).followedBy
            tail := by
      rw [followedBy_afterOperand]
      exact hsame
    rw [next_eq_nextFrom, next_eq_nextFrom, nextFrom, nextFrom, hseek]
    cases hs : seek mode lexer.afterOperand (lexer.cursor.rest.length + 1) lexer.cursor false with
    | token start kind lexeme precedence newline =>
      rw [hs] at hlead
      obtain ⟨-, -, -, hprefix⟩ := hlead.2.spans
      rw [Token.ofLexeme, String.toList_ofList] at hprefix
      simp only [Sighting.followedBy, behind, emit, Cursor.advance_followedBy hprefix,
        followedBy_afterOperand]
      rfl
    | stuck place => rfl
    | finished place => rfl
  · right
    have hnil := rest_eq_nil_of_seek_finished (Nat.lt_succ_self _) hstop
    rw [next_eq_nextFrom, nextFrom, hstop]
    exact ⟨rfl, rfl, hnil⟩

theorem reread_followedBy (h : lexer.rewound.Overlooks tail mode) :
    (lexer.followedBy tail).reread mode = (lexer.reread mode).followedBy tail ∨
      (lexer.reread mode).Ended := by
  rw [reread_eq_next, reread_eq_next, followedBy_rewound]
  exact next_followedBy h

end Lexer

/-- Whether the rules find the same with more behind a text, and do not pass over all of the text. -/
def Rule.overlooks (tail : List Char) (mode : LexerMode) (afterOperand : Bool) (text : List Char) :
    Bool :=
  first? mode afterOperand (text ++ tail) == first? mode afterOperand text &&
    (first? mode afterOperand text).all fun (rule, lexeme) =>
      !rule.kind.isTrivia || lexeme.raw != text

namespace Lexer

/-- Unless nothing is left, what is behind the text makes no difference to what is found, and something
is. -/
theorem seek_followedBy {tail : List Char} {mode : LexerMode} {afterOperand newline : Bool}
    {fuel fuel' : Nat} {place : Cursor}
    (h : ∀ text, text <:+ place.rest → text ≠ [] → Rule.overlooks tail mode afterOperand text = true)
    (hne : place.rest ≠ []) (hf : place.rest.length < fuel)
    (hf' : (place.rest ++ tail).length < fuel') :
    seek mode afterOperand fuel' (place.followedBy tail) newline =
        (seek mode afterOperand fuel place newline).followedBy tail ∧
      ∀ stop, seek mode afterOperand fuel place newline ≠ .finished stop := by
  induction fuel generalizing fuel' place newline with
  | zero => exact absurd hf (Nat.not_lt_zero _)
  | succ fuel ih =>
    obtain ⟨n, rfl⟩ : ∃ n, fuel' = n + 1 := ⟨fuel' - 1, by omega⟩
    have he : ¬place.rest.isEmpty = true := by simpa using hne
    have he' : ¬(place.followedBy tail).rest.isEmpty = true := by simp [Cursor.followedBy, hne]
    have hrest : (place.followedBy tail).rest = place.rest ++ tail := rfl
    obtain ⟨hsame, hover⟩ := Bool.and_eq_true_iff.mp (h place.rest (List.suffix_refl _) hne)
    rw [seek, seek, if_neg he, if_neg he', hrest, eq_of_beq hsame]
    cases hfound : Rule.first? mode afterOperand place.rest with
    | none =>
      refine ⟨rfl, fun stop he => ?_⟩
      cases he
    | some found =>
      obtain ⟨rule, lexeme⟩ := found
      have hprefix := Rule.first?_isPrefix hfound
      dsimp only
      split
      · rename_i htrivia
        split
        · refine ⟨rfl, fun stop he => ?_⟩
          cases he
        · -- a piece of trivia is passed over, and fewer characters are left
          have hpos := List.length_pos_iff.mpr (Rule.raw_ne_nil_of_first hfound)
          have hle := hprefix.length_le
          have hdrop : (place.advance lexeme.raw).rest <:+ place.rest := List.drop_suffix _ _
          have hleft : (place.advance lexeme.raw).rest ≠ [] := by
            rw [hfound] at hover
            obtain ⟨rest, hrest⟩ := hprefix
            simp only [Option.all_some, htrivia, Bool.not_true, Bool.false_or, bne_iff_ne] at hover
            rw [Cursor.advance, ← hrest, List.drop_left]
            rintro rfl
            rw [List.append_nil] at hrest
            exact hover hrest
          rw [Cursor.advance_followedBy hprefix]
          rw [List.length_append] at hf'
          refine ih (fun text ht => h text (ht.trans hdrop)) hleft ?_ ?_
          · rw [Cursor.advance, List.length_drop]
            omega
          · rw [Cursor.advance, List.length_append, List.length_drop]
            omega
      · refine ⟨rfl, fun stop he => ?_⟩
        cases he

/-- A reading does not see what is behind the text where the rules never do. -/
theorem clear_of_rules {lexer : Lexer} {tail : List Char} {mode : LexerMode}
    (h : ∀ text, text <:+ lexer.cursor.rest → text ≠ [] →
      Rule.overlooks tail mode lexer.afterOperand text = true) : lexer.Clear tail mode := by
  by_cases hne : lexer.cursor.rest = []
  · refine ⟨.inr ⟨lexer.cursor, ?_⟩, fun _ => hne⟩
    rw [seek, hne]
    rfl
  · obtain ⟨hsame, hfound⟩ := seek_followedBy h hne (Nat.lt_succ_self _) (Nat.lt_succ_self _)
    refine ⟨.inl hsame, fun hx => absurd hx ?_⟩
    rw [next_eq_nextFrom, nextFrom]
    cases hs : seek mode lexer.afterOperand (lexer.cursor.rest.length + 1) lexer.cursor false with
    | token start kind lexeme precedence newline => exact Bool.false_ne_true
    | stuck place => exact Bool.false_ne_true
    | finished stop => exact absurd hs (hfound stop)

variable {lexer : Lexer} {mode : LexerMode}

/-- What is left of a text gets shorter, also if the token that comes next is read again. -/
theorem next_isSuffix (lexer : Lexer) (mode : LexerMode) :
    (lexer.next mode).cursor.rest <:+ lexer.cursor.rest ∧
      (lexer.next mode).rewound.cursor.rest <:+ lexer.cursor.rest := by
  have hlead := seek_leads mode lexer.afterOperand (lexer.cursor.rest.length + 1) lexer.cursor false
  have hskipped {stop : Cursor} (hskip : lexer.cursor.Skips stop) :
      stop.rest <:+ lexer.cursor.rest := by
    obtain ⟨gap, hgap, -⟩ := hskip.spans
    exact ⟨gap, hgap.symm⟩
  rw [next_eq_nextFrom, nextFrom]
  cases hs : seek mode lexer.afterOperand (lexer.cursor.rest.length + 1) lexer.cursor false with
  | token start kind lexeme precedence newline =>
    rw [hs] at hlead
    have hstart := hskipped hlead.1
    exact ⟨(List.drop_suffix _ _).trans hstart, hstart⟩
  | stuck place =>
    rw [hs] at hlead
    exact ⟨hskipped hlead, hskipped hlead⟩
  | finished place =>
    rw [hs] at hlead
    exact ⟨hskipped hlead, hskipped hlead⟩

/-- The token that has been read stands where the stream goes back to. -/
theorem next_at {token : Token} (h : (lexer.next mode).current = some token) :
    token.At (lexer.next mode).rewound.cursor := by
  have hlead := seek_leads mode lexer.afterOperand (lexer.cursor.rest.length + 1) lexer.cursor false
  rw [next_eq_nextFrom, nextFrom] at h ⊢
  cases hs : seek mode lexer.afterOperand (lexer.cursor.rest.length + 1) lexer.cursor false with
  | token start kind lexeme precedence newline =>
    rw [hs] at h hlead
    cases h
    exact hlead.2
  | stuck place =>
    rw [hs] at h
    cases h
  | finished place =>
    rw [hs] at h
    cases h

/-- A token is recorded by whether an operand ends with it: by its kind, as an increment or decrement
behind an operand on the same line, or as the last piece of a template. -/
def Marked (lexer : Lexer) : Prop :=
  ∀ word, lexer.current = some word → lexer.afterOperand =
    (word.kind.closesOperand ||
      (lexer.rewound.afterOperand && !word.afterNewline && Operator.isUpdate word.value) ||
      (word.kind == .templateChunk && word.raw.toList.getLast? == some '\x60'))

theorem next_rewound_afterOperand (lexer : Lexer) (mode : LexerMode) :
    (lexer.next mode).rewound.afterOperand = lexer.afterOperand := by
  rw [next_eq_nextFrom, nextFrom]
  cases seek mode lexer.afterOperand (lexer.cursor.rest.length + 1) lexer.cursor false <;> rfl

theorem next_marked (lexer : Lexer) (mode : LexerMode) : (lexer.next mode).Marked := by
  intro word hw
  rw [next_rewound_afterOperand]
  rw [next_eq_nextFrom, nextFrom] at hw ⊢
  cases hs : seek mode lexer.afterOperand (lexer.cursor.rest.length + 1) lexer.cursor false with
  | token start kind lexeme precedence newline =>
    rw [hs] at hw
    cases hw
    have hspelling (spelling : List Char) :
        (String.ofList lexeme.value == String.ofList spelling) = (lexeme.value == spelling) := by
      rw [Bool.eq_iff_iff, beq_iff_eq, beq_iff_eq, String.ofList_inj]
    have hupdate : Operator.isUpdate (String.ofList lexeme.value) =
        (lexeme.value == ['+', '+'] || lexeme.value == ['-', '-']) :=
      congrArg₂ or (hspelling ['+', '+']) (hspelling ['-', '-'])
    rw [hupdate, String.toList_ofList]
    rfl
  | stuck place =>
    rw [hs] at hw
    cases hw
  | finished place =>
    rw [hs] at hw
    cases hw

theorem reread_marked (lexer : Lexer) (mode : LexerMode) : (lexer.reread mode).Marked := by
  rw [reread_eq_next]
  exact next_marked _ mode

/-- Nothing but parts of a name is left, the current token included. -/
def Spent (lexer : Lexer) : Prop :=
  ∀ c, c ∈ lexer.rewound.cursor.rest ∨ c ∈ lexer.cursor.rest → isNamePart c = true

theorem Ended.spent (h : lexer.Ended) : lexer.Spent := by
  have hrewound : lexer.rewound = lexer := by
    unfold rewound
    rw [h.current]
  intro c hc
  rw [hrewound, h.rest] at hc
  simp at hc

theorem Spent.next (h : lexer.Spent) (mode : LexerMode) : (lexer.next mode).Spent := by
  obtain ⟨hrest, hagain⟩ := lexer.next_isSuffix mode
  rintro c (hc | hc)
  · exact h c (.inr (hagain.subset hc))
  · exact h c (.inr (hrest.subset hc))

theorem Spent.reread (h : lexer.Spent) (mode : LexerMode) : (lexer.reread mode).Spent := by
  obtain ⟨hrest, hagain⟩ := lexer.rewound.next_isSuffix mode
  rw [reread_eq_next]
  rintro c (hc | hc)
  · exact h c (.inl (hagain.subset hc))
  · exact h c (.inl (hrest.subset hc))

/-- A faithful stream goes back to where its current token starts. -/
theorem Faithful.rewound_at (h : lexer.Faithful) {word : Token} (hw : lexer.current = some word) :
    word.At lexer.rewound.cursor ∧
      lexer.rewound.cursor.rest = word.raw.toList ++ lexer.cursor.rest := by
  obtain ⟨place, closesOperand, history, hh, hat, hc⟩ := h.current word hw
  have hrewound : lexer.rewound.cursor = place := by
    unfold rewound
    rw [hw, hh]
  obtain ⟨-, -, -, rest, hp⟩ := hat.spans
  rw [hrewound]
  refine ⟨hat, ?_⟩
  rw [hc, Cursor.advance, ← hp, List.drop_left]

/-- The kinds of tokens that close brackets, and their spellings. -/
def closers : List (TokenKind × Char) :=
  [(.closeParen, ')'), (.closeBracket, ']'), (.closeBrace, '\x7d')]

/-- In a stream with nothing but parts of a name left, no bracket is closed. -/
theorem Spent.not_closer (h : lexer.Spent) (hf : lexer.Faithful) {word : Token}
    (hw : lexer.current = some word) {kind : TokenKind} (hk : kind ∈ closers.map Prod.fst) :
    word.kind ≠ kind := by
  have hrules : ∀ entry ∈ closers, entry.1 ≠ .semicolon ∧ entry.1 ≠ .templateChunk ∧
      isNamePart entry.2 = false ∧ ∀ rule ∈ Rule.table, rule.kind = entry.1 →
        rule.pattern = .punctuators [String.ofList [entry.2]] := by
    decide
  intro hkind
  obtain ⟨⟨kind', c⟩, hin, rfl⟩ := List.mem_map.mp hk
  obtain ⟨hs, ht, hc, hp⟩ := hrules _ hin
  obtain ⟨hat, -⟩ := hf.rewound_at hw
  obtain ⟨-, rest, hrest⟩ := hat.of_spelling hkind hs ht hp
  have hpart := h c (.inl (by simp [hrest]))
  rw [hc] at hpart
  cases hpart

theorem isNamePart_of_name? {text name : List Char} (h : Scan.name? text = some name) :
    ∀ c ∈ name, isNamePart c = true := by
  cases text with
  | nil => cases h
  | cons c text =>
    rw [Scan.name?] at h
    split at h
    · rename_i hc
      cases h
      refine List.forall_mem_cons.mpr ⟨isNamePart_of_isNameStart hc, fun c hin => ?_⟩
      exact List.mem_takeWhile_imp hin
    · cases h

/-- The words that may stand before a member are made of parts of a name. -/
theorem isNamePart_of_memberWord {place : Cursor} {word : Token} (h : word.At place)
    (hk : word.kind ∈ [.staticKeyword, .getKeyword, .setKeyword, .identifierName]) :
    ∀ c ∈ word.raw.toList, isNamePart c = true := by
  have hrules : ∀ rule ∈ Rule.table,
      rule.kind ∈ [.staticKeyword, .getKeyword, .setKeyword, .identifierName] →
        rule.pattern = .form .identifier ∨ ∃ spelling ∈ ["static", "get", "set"],
          rule.pattern = .words [spelling] := by
    decide
  cases h with
  | comment hf he => simp [Token.ofLexeme] at hk
  | @plain mode afterOperand newline rule lexeme hf ht =>
    obtain ⟨ha, hr⟩ := Rule.applies_of_first hf
    have hin : rule ∈ Rule.table := by
      rcases hr with ⟨-, rfl⟩ | ⟨-, hin, -⟩
      · simp [Token.ofLexeme, Rule.templateChunk, Rule.form] at hk
      · exact hin
    rw [Token.ofLexeme, String.toList_ofList]
    rcases hrules rule hin hk with hp | ⟨spelling, hs, hp⟩
    · rw [hp] at ha
      obtain ⟨name, hname, rfl⟩ := Option.map_eq_some_iff.mp ha
      simpa [Lexeme.raw, Lexeme.whole] using isNamePart_of_name? hname
    · rw [hp] at ha
      obtain ⟨word, hw, rfl⟩ := Option.map_eq_some_iff.mp ha
      obtain rfl := List.mem_singleton.mp (List.mem_of_find?_eq_some hw)
      have hall : ∀ spelling ∈ ["static", "get", "set"], spelling.toList.all isNamePart = true := by
        decide
      simpa [Lexeme.raw, Lexeme.whole] using hall word hs

end Lexer

end ScriptTree
