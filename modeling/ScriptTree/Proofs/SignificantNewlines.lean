import ScriptTree.Proofs.StatementTokens

/-!
Where line feeds count, the next token is the same as where they do not, unless a line ends before it.

A line ends with a line feed, or with a block comment that has one in it. Both modes pass over the
same trivia up to there. The first end of a line is then a token of its own.
-/

namespace ScriptTree

/-- What ends a line: a line feed, or a block comment with a line feed in it. -/
inductive LineEnd : List Char → Prop
  | lineFeed : LineEnd ['\n']
  | comment {body : List Char} :
    ¬['*', '/'] <:+: body → '\n' ∈ body → LineEnd ('/' :: '*' :: (body ++ ['*', '/']))

theorem LineEnd.broken {ending : List Char} (h : LineEnd ending) : '\n' ∈ ending := by
  cases h with
  | lineFeed => exact List.mem_singleton_self _
  | comment _ hb => simp [hb]

/-- The first line of some trivia: what it consists of, how it ends, and the trivia behind it. Nothing
but whole pieces of trivia stands before the end, so that lies in no comment. -/
structure FirstLine (gap rest line ending behind : List Char) : Prop where
  split : gap = line ++ (ending ++ behind)
  unbroken : '\n' ∉ line
  ends : LineEnd ending
  trivia : Trivia (gap ++ rest) (ending ++ behind ++ rest)

namespace Rule

/-- Where line feeds count, one is a token. -/
theorem first?_lineFeed (afterOperand : Bool) (text : List Char) :
    first? .newlines afterOperand ('\n' :: text) =
      some ({ form .semicolon .lineFeed with newline := .significant }, .whole ['\n']) := by
  cases afterOperand <;> exact first?_of_startingWith rfl (startingWith_of_lookup rfl) rfl

/-- Trivia are white space, or else they are of the kind of a comment. -/
theorem trivia_kinds : ∀ rule ∈ table, rule.kind.isTrivia = true →
    rule.pattern ∈ [.form .inlineSpace, .form .space] ∨
      rule.kind = .comment ∧ rule.pattern ∈ [.form .blockComment, .form .lineComment] := by
  decide

/-- Where no white space stands, only a comment is passed over. If there is a line feed in it, then it
is a block comment and ends a line. -/
theorem comment_of_first {mode : LexerMode} {afterOperand : Bool} {text : List Char} {rule : Rule}
    {lexeme : Lexeme} (h : first? mode afterOperand text = some (rule, lexeme))
    (ht : rule.kind.isTrivia = true) (hs : ∀ c ∈ text.head?, isSpace c = false) :
    Lexer.endsLine .newlines rule.kind lexeme.raw = lexeme.raw.contains '\n' ∧
      ('\n' ∈ lexeme.raw → LineEnd lexeme.raw) := by
  obtain ⟨ha, hr⟩ := applies_of_first h
  have hin : rule ∈ table := by
    rcases hr with ⟨-, rfl⟩ | ⟨-, hin, -⟩
    · cases ht
    · exact hin
  rcases trivia_kinds rule hin ht with hp | ⟨hk, hp⟩
  · -- a run of white space is not empty
    have hnone : rule.pattern.apply text = none := by
      simp only [List.mem_cons, List.not_mem_nil, or_false] at hp
      cases text with
      | nil => rcases hp with hp | hp <;> rw [hp] <;> rfl
      | cons c text =>
        apply Pattern.apply_eq_none
        rcases hp with hp | hp <;> rw [hp] <;> exact hs c rfl
    rw [hnone] at ha
    cases ha
  · simp only [List.mem_cons, List.not_mem_nil, or_false] at hp
    rcases hp with hp | hp <;> rw [hp] at ha
    · simp only [Pattern.apply, LexicalForm.match?, Scan.blockComment] at ha
      split at ha
      · obtain ⟨tail, htail, rfl⟩ := Option.map_eq_some_iff.mp ha
        obtain ⟨body, behind, rfl, rfl, hb⟩ := Scan.commentTail?_eq_some_iff.mp htail
        constructor
        · simp [Lexer.endsLine, hk, LexerMode.newlines, afterSpelling?, Lexeme.raw, Lexeme.whole]
        · intro hn
          have hbody : '\n' ∈ body := by simpa [Lexeme.raw, Lexeme.whole] using hn
          simpa [Lexeme.raw, Lexeme.whole] using LineEnd.comment hb hbody
      · cases ha
    · simp only [Pattern.apply, LexicalForm.match?, Scan.lineComment] at ha
      split at ha
      · rename_i inner
        cases ha
        have hnone : '\n' ∉ inner.takeWhile (· != '\n') := by
          intro hn
          simpa using List.mem_takeWhile_imp hn
        constructor
        · simp [Lexer.endsLine, afterSpelling?, Lexeme.raw, Lexeme.whole, hnone]
        · intro hn
          exact absurd hn (by simpa [Lexeme.raw, Lexeme.whole] using hnone)
      · cases ha

end Rule

/-- Where a search stops. -/
def Sighting.place : Sighting → Cursor
  | .token start _ _ _ _ => start
  | .stuck place => place
  | .finished place => place

namespace Lexer

theorem marker_next (lexer : Lexer) (mode : LexerMode) : (lexer.next mode).marker =
    (seek mode lexer.afterOperand (lexer.cursor.rest.length + 1) lexer.cursor false).place.offset := by
  unfold next
  cases seek mode lexer.afterOperand (lexer.cursor.rest.length + 1) lexer.cursor false <;> rfl

/-- What a search passes over where line feeds do not count, and what one finds then where they do. -/
structure AlikeInLine (afterOperand newline : Bool) (fuel : Nat) (place : Cursor)
    (gap rest : List Char) : Prop where
  text : place.rest = gap ++ rest
  stop : (seek .default afterOperand fuel place newline).place.offset =
    place.offset + byteLength gap
  trivia : Trivia (gap ++ rest) rest
  unbroken : '\n' ∉ gap → seek .newlines afterOperand fuel place newline =
    seek .default afterOperand fuel place newline
  broken : '\n' ∈ gap → ∃ line ending behind, FirstLine gap rest line ending behind ∧
    seek .newlines afterOperand fuel place newline =
      .token (place.advance line) .semicolon (.whole ending) none newline

namespace AlikeInLine

variable {afterOperand newline newline' : Bool} {fuel : Nat} {place : Cursor}
  {gap rest piece : List Char}

/-- Nothing is passed over. -/
theorem here (hd : (seek .default afterOperand fuel place newline).place = place)
    (hn : seek .newlines afterOperand fuel place newline =
      seek .default afterOperand fuel place newline) :
    AlikeInLine afterOperand newline fuel place [] place.rest where
  text := rfl
  stop := by rw [hd]; rfl
  trivia := .none place.rest
  unbroken _ := hn
  broken h := absurd h List.not_mem_nil

/-- One more piece, without a line feed, is passed over in both modes. -/
theorem pass (h : AlikeInLine afterOperand newline fuel (place.advance piece) gap rest)
    (hp : place.rest = piece ++ (place.advance piece).rest) (hl : '\n' ∉ piece)
    (ht : Trivia place.rest (place.advance piece).rest)
    (hd : seek .default afterOperand (fuel + 1) place newline =
      seek .default afterOperand fuel (place.advance piece) newline)
    (hn : seek .newlines afterOperand (fuel + 1) place newline =
      seek .newlines afterOperand fuel (place.advance piece) newline) :
    AlikeInLine afterOperand newline (fuel + 1) place (piece ++ gap) rest := by
  have htext : place.rest = piece ++ gap ++ rest := by rw [hp, h.text, List.append_assoc]
  constructor
  · exact htext
  · rw [hd, h.stop, byteLength_append, ← Nat.add_assoc]
    rfl
  · rw [← htext]
    rw [h.text] at ht
    exact ht.trans h.trivia
  · intro hnone
    rw [hn, hd]
    exact h.unbroken fun hg => hnone (List.mem_append_right piece hg)
  · intro hsome
    have hg : '\n' ∈ gap := (List.mem_append.mp hsome).resolve_left hl
    obtain ⟨line, ending, behind, hfirst, hfound⟩ := h.broken hg
    refine ⟨piece ++ line, ending, behind, ⟨?_, ?_, hfirst.ends, ?_⟩, ?_⟩
    · rw [hfirst.split, List.append_assoc]
    · exact fun hin => (List.mem_append.mp hin).elim hl hfirst.unbroken
    · rw [← htext]
      rw [h.text] at ht
      exact ht.trans hfirst.trivia
    · have hplace : (place.advance piece).advance line = place.advance (piece ++ line) := by
        simp [Cursor.advance, byteLength_append, Nat.add_assoc]
      rw [hn, hfound, hplace]

/-- A piece that ends a line is a token where line feeds count, and is passed over where not. -/
theorem ended (h : AlikeInLine afterOperand newline' fuel (place.advance piece) gap rest)
    (hp : place.rest = piece ++ (place.advance piece).rest) (he : LineEnd piece)
    (ht : Trivia place.rest (place.advance piece).rest)
    (hd : seek .default afterOperand (fuel + 1) place newline =
      seek .default afterOperand fuel (place.advance piece) newline')
    (hn : seek .newlines afterOperand (fuel + 1) place newline =
      .token place .semicolon (.whole piece) none newline) :
    AlikeInLine afterOperand newline (fuel + 1) place (piece ++ gap) rest := by
  have htext : place.rest = piece ++ gap ++ rest := by rw [hp, h.text, List.append_assoc]
  constructor
  · exact htext
  · rw [hd, h.stop, byteLength_append, ← Nat.add_assoc]
    rfl
  · rw [← htext]
    rw [h.text] at ht
    exact ht.trans h.trivia
  · exact fun hnone => absurd (List.mem_append_left gap he.broken) hnone
  · exact fun _ => ⟨[], piece, gap, ⟨rfl, List.not_mem_nil, he, .none _⟩, hn⟩

end AlikeInLine

section Step

variable {afterOperand newline : Bool} {fuel : Nat} {place : Cursor}

theorem rest_eq_of_prefix {piece : List Char} (h : piece <+: place.rest) :
    place.rest = piece ++ (place.advance piece).rest := by
  obtain ⟨rest, hs⟩ := h
  rw [Cursor.advance, ← hs, List.drop_left]

/-- White space: both modes can be seen to pass over one character of it. -/
theorem alikeInLine_space {c : Char} {text : List Char} (hc : isSpace c = true)
    (hp : place.rest = c :: text) (hf : place.rest.length < fuel + 1)
    (hlater : ∀ newline', ∃ gap rest,
      AlikeInLine afterOperand newline' fuel (place.advance [c]) gap rest) :
    ∃ gap rest, AlikeInLine afterOperand newline (fuel + 1) place gap rest := by
  obtain ⟨offset, _⟩ := place
  dsimp only at hp
  subst hp
  have hskip (mode : LexerMode) (hm : mode.skips c = true) :
      seek mode afterOperand (fuel + 1) ⟨offset, c :: text⟩ newline =
        seek mode afterOperand fuel (Cursor.advance ⟨offset, c :: text⟩ [c])
          (newline || [c].contains '\n') :=
    seek_skip hm hf (Nat.lt_of_succ_lt_succ hf)
  have hd := hskip .default (by simp [LexerMode.skips, LexerMode.default, hc])
  obtain ⟨gap, rest, h⟩ := hlater (newline || [c].contains '\n')
  refine ⟨[c] ++ gap, rest, ?_⟩
  by_cases hl : c = '\n'
  · subst hl
    apply h.ended rfl .lineFeed (.space hc (.none text)) hd
    rw [seek, if_neg (by simp), Rule.first?_lineFeed]
    rfl
  · have hflag : (newline || [c].contains '\n') = newline := by simp [Ne.symm hl]
    have hn := hskip .newlines (by simp [LexerMode.skips, LexerMode.newlines, LexerMode.default, hc, hl])
    rw [hflag] at h hd hn
    exact h.pass rfl (by simpa using Ne.symm hl) (.space hc (.none text)) hd hn

/-- Something else than white space: the same rule matches in both modes. -/
theorem alikeInLine_solid (hs : ∀ c ∈ place.rest.head?, isSpace c = false)
    (hlater : ∀ newline' piece, piece ≠ [] → piece <+: place.rest → ∃ gap rest,
      AlikeInLine afterOperand newline' fuel (place.advance piece) gap rest) :
    ∃ gap rest, AlikeInLine afterOperand newline (fuel + 1) place gap rest := by
  by_cases hempty : place.rest.isEmpty = true
  · refine ⟨[], place.rest, .here ?_ ?_⟩
    · simp only [seek, hempty]
      rfl
    · simp only [seek, hempty, if_true]
  have hsame := Rule.first?_newlines hs afterOperand
  cases hfirst : Rule.first? .default afterOperand place.rest with
  | none =>
    rw [hfirst] at hsame
    refine ⟨[], place.rest, .here ?_ ?_⟩
    · simp only [seek, hempty, hfirst]
      rfl
    · simp only [seek, hfirst, hsame]
  | some found =>
    obtain ⟨rule, lexeme⟩ := found
    rw [hfirst] at hsame
    cases ht : rule.kind.isTrivia with
    | false =>
      refine ⟨[], place.rest, .here ?_ ?_⟩
      · simp only [seek, hempty, hfirst, ht]
        rfl
      · simp only [seek, hfirst, hsame, ht, Bool.false_eq_true, if_false]
    | true =>
      -- a comment, which ends a line if there is a line feed in it
      obtain ⟨hends, hline⟩ := Rule.comment_of_first hfirst ht hs
      have hp := rest_eq_of_prefix (Rule.first?_isPrefix hfirst)
      have hover := (Cursor.Skips.of_first hfirst ht).trivia
      have hd : seek .default afterOperand (fuel + 1) place newline =
          seek .default afterOperand fuel (place.advance lexeme.raw)
            (newline || lexeme.raw.contains '\n') := by
        simp only [seek, hempty, hfirst, ht]
        rfl
      obtain ⟨gap, rest, h⟩ := hlater (newline || lexeme.raw.contains '\n') lexeme.raw
        (Rule.raw_ne_nil_of_first hfirst) (Rule.first?_isPrefix hfirst)
      refine ⟨lexeme.raw ++ gap, rest, ?_⟩
      cases hl : lexeme.raw.contains '\n' with
      | true =>
        apply h.ended hp (hline (List.contains_iff_mem.mp hl)) hover hd
        simp only [seek, hempty, hsame, ht, hends, hl, Bool.false_eq_true, if_false, if_true]
      | false =>
        have hn : seek .newlines afterOperand (fuel + 1) place newline =
            seek .newlines afterOperand fuel (place.advance lexeme.raw) newline := by
          simp only [seek, hempty, hsame, ht, hends, hl, Bool.or_false, Bool.false_eq_true, if_false,
            if_true]
        rw [hl, Bool.or_false] at h hd
        exact h.pass hp (by simpa using hl) hover hd hn

end Step

/-- Both searches go on in step, one character of white space or one comment at a time, until a line
ends or something else than trivia comes. -/
theorem alikeInLine (afterOperand newline : Bool) {fuel : Nat} {place : Cursor}
    (hf : place.rest.length < fuel) :
    ∃ gap rest, AlikeInLine afterOperand newline fuel place gap rest := by
  induction fuel generalizing place newline with
  | zero => exact absurd hf (Nat.not_lt_zero _)
  | succ fuel ih =>
    have hlater (newline' : Bool) (piece : List Char) (hne : piece ≠ []) (hp : piece <+: place.rest) :
        ∃ gap rest, AlikeInLine afterOperand newline' fuel (place.advance piece) gap rest := by
      apply ih
      have hpos := List.length_pos_iff.mpr hne
      have hle := hp.length_le
      simp only [Cursor.advance, List.length_drop]
      omega
    cases hrest : place.rest with
    | nil => exact alikeInLine_solid (by simp [hrest]) hlater
    | cons c text =>
      by_cases hc : isSpace c = true
      · apply alikeInLine_space hc hrest hf
        intro newline'
        apply hlater newline' [c] (List.cons_ne_nil c [])
        rw [hrest]
        exact ⟨text, rfl⟩
      · apply alikeInLine_solid _ hlater
        intro d hd
        rw [hrest] at hd
        cases hd
        simpa using hc

/-- Where no line ends in the trivia before the next token, the stream goes on in the same way whether
line feeds count or not. Otherwise the first end of a line is the next token where they count. -/
theorem next_newlines (lexer : Lexer) :
    ∃ gap rest, lexer.cursor.rest = gap ++ rest ∧
      (lexer.next .default).marker = lexer.cursor.offset + byteLength gap ∧
      Trivia (gap ++ rest) rest ∧
      ('\n' ∉ gap → lexer.next .newlines = lexer.next .default) ∧
      ('\n' ∈ gap → ∃ line ending behind, FirstLine gap rest line ending behind ∧
        lexer.next .newlines =
          lexer.emit (lexer.cursor.advance line) .semicolon (.whole ending) none false) := by
  obtain ⟨gap, rest, h⟩ := alikeInLine lexer.afterOperand false (Nat.lt_succ_self lexer.cursor.rest.length)
  refine ⟨gap, rest, h.text, ?_, h.trivia, ?_, ?_⟩
  · rw [marker_next]
    exact h.stop
  · intro hnone
    rw [next, next, h.unbroken hnone]
  · intro hsome
    obtain ⟨line, ending, behind, hfirst, hfound⟩ := h.broken hsome
    refine ⟨line, ending, behind, hfirst, ?_⟩
    rw [next, hfound]

end Lexer

end ScriptTree
