import Mathlib.Data.List.Induction
import ScriptTree.Proofs.ByteStream
import ScriptTree.Proofs.SettledRules
import ScriptTree.Proofs.StreamRequests

/-!
Tokens asked for one after the other tile the text.

A stream in front of a text is asked for tokens in any modes. Each token is a piece of the text behind
the one before it, with nothing but white space and comments between the two; and where no token is
handed out, the text has ended or no rule that is tried matches.
-/

namespace ScriptTree

theorem Rule.first?_eq_none_iff {mode : LexerMode} {afterOperand : Bool} {text : List Char} :
    first? mode afterOperand text = none ↔
      ∀ rule ∈ tried mode afterOperand, rule.match? text = none := by
  rw [first?_eq_tried, List.findSome?_eq_none_iff]

/-- From one offset to another there is nothing but white space and comments in a text. -/
def TriviaBetween (source : List Char) (start stop : Nat) : Prop :=
  ∃ text rest, dropBytes? start source = some text ∧ dropBytes? stop source = some rest ∧
    Trivia text rest

/-- The value of a token is a piece of it. -/
theorem Token.At.value_isInfix {place : Cursor} {token : Token} (h : token.At place) :
    token.value.toList <:+: token.raw.toList := by
  cases h with
  | plain =>
    rename_i rule lexeme _ _
    rw [ofLexeme, String.toList_ofList, String.toList_ofList]
    exact ⟨lexeme.lead, lexeme.trail, rfl⟩
  | comment =>
    rw [ofLexeme, String.toList_ofList, String.toList_ofList]
    exact ⟨[], [], rfl⟩

namespace Lexer

/-- What a search that has passed a line feed, or not, knows of where it stops. -/
def Knows (mode : LexerMode) (afterOperand : Bool) (place : Cursor) (newline : Bool) :
    Sighting → Prop
  | .token start _ _ _ newline' =>
    ∃ gap, place.rest = gap ++ start.rest ∧ start.offset = place.offset + byteLength gap ∧
      newline' = (newline || gap.contains '\n')
  | .stuck stop => Rule.first? mode afterOperand stop.rest = none
  | .finished _ => True

theorem seek_knows (mode : LexerMode) (afterOperand : Bool) (fuel : Nat) (place : Cursor)
    (newline : Bool) :
    Knows mode afterOperand place newline (seek mode afterOperand fuel place newline) := by
  -- a token right here has no gap before it
  have hhere : ∃ gap, place.rest = gap ++ place.rest ∧
      place.offset = place.offset + byteLength gap ∧ newline = (newline || gap.contains '\n') :=
    ⟨[], rfl, rfl, (Bool.or_false newline).symm⟩
  induction fuel generalizing place newline with
  | zero => exact trivial
  | succ fuel ih =>
    rw [seek]
    split
    · exact trivial
    · split
      · rename_i hr
        exact hr
      · rename_i rule lexeme hr
        split
        · split
          · exact hhere
          · obtain ⟨rest, hp⟩ := Rule.first?_isPrefix hr
            have hlater : (place.advance lexeme.raw).rest = rest := by
              rw [Cursor.advance, ← hp, List.drop_left]
            have hbehind := ih (place.advance lexeme.raw) (newline || lexeme.raw.contains '\n')
              ⟨[], rfl, rfl, (Bool.or_false _).symm⟩
            revert hbehind
            cases seek mode afterOperand fuel (place.advance lexeme.raw)
                (newline || lexeme.raw.contains '\n') with
            | stuck => exact fun hbehind => hbehind
            | finished => exact fun hbehind => hbehind
            | token start kind found precedence newline' =>
              rintro ⟨gap, hg, ho, hn⟩
              refine ⟨lexeme.raw ++ gap, ?_, ?_, ?_⟩
              · rw [← hp, List.append_assoc, ← hg, hlater]
              · rw [ho, byteLength_append, Cursor.advance, Nat.add_assoc]
              · rw [hn, Bool.or_assoc, List.contains_append]
        · exact hhere

/-- What a request can do: hand out a token behind a gap of trivia, get stuck behind trivia, or find
the end of the text behind trivia. -/
theorem next_cases (lexer : Lexer) (mode : LexerMode) :
    (∃ start kind lexeme precedence gap,
      lexer.next mode = lexer.emit start kind lexeme precedence (gap.contains '\n') ∧
        lexer.cursor.Skips start ∧
        (Token.ofLexeme start kind lexeme precedence (gap.contains '\n')).At start ∧
        lexer.cursor.rest = gap ++ start.rest ∧
        start.offset = lexer.cursor.offset + byteLength gap) ∨
    (∃ place, lexer.next mode = { lexer with cursor := place, current := none, exhausted := false } ∧
      lexer.cursor.Skips place ∧ Rule.first? mode lexer.afterOperand place.rest = none) ∨
    (∃ place, lexer.next mode = { lexer with cursor := place, current := none, exhausted := true } ∧
      lexer.cursor.Skips place ∧ place.rest = []) := by
  have hlead := seek_leads mode lexer.afterOperand (lexer.cursor.rest.length + 1) lexer.cursor false
  have hknow := seek_knows mode lexer.afterOperand (lexer.cursor.rest.length + 1) lexer.cursor false
  unfold next
  cases hs : seek mode lexer.afterOperand (lexer.cursor.rest.length + 1) lexer.cursor false with
  | token start kind lexeme precedence newline =>
    rw [hs] at hlead hknow
    obtain ⟨gap, hg, ho, rfl⟩ := hknow
    rw [Bool.false_or] at hlead ⊢
    exact Or.inl ⟨start, kind, lexeme, precedence, gap, rfl, hlead.1, hlead.2, hg, ho⟩
  | stuck place =>
    rw [hs] at hlead hknow
    exact Or.inr (Or.inl ⟨place, rfl, hlead, hknow⟩)
  | finished place =>
    rw [hs] at hlead
    exact Or.inr (Or.inr ⟨place, rfl, hlead,
      rest_eq_nil_of_seek_finished (Nat.lt_succ_self _) hs⟩)

/-- The tokens handed out when tokens are asked for in some modes, one after the other. -/
def tokensRead (lexer : Lexer) : List LexerMode → List Token
  | [] => []
  | mode :: modes => (lexer.next mode).current.toList ++ (lexer.next mode).tokensRead modes

theorem tokensRead_append (lexer : Lexer) (modes : List LexerMode) (mode : LexerMode) :
    lexer.tokensRead (modes ++ [mode]) =
      lexer.tokensRead modes ++ ((modes.foldl next lexer).next mode).current.toList := by
  induction modes generalizing lexer with
  | nil => simp [tokensRead]
  | cons other modes ih =>
    rw [List.cons_append, tokensRead, tokensRead, ih, List.append_assoc, List.foldl_cons]

/-- The offset behind the last token handed out, or the start of the text. -/
def lastStop (source : List Char) (modes : List LexerMode) : Nat :=
  (((ofText source).tokensRead modes).getLast?.map Token.stop).getD 0

theorem foldl_next_faithful (source : List Char) (modes : List LexerMode) :
    (modes.foldl next (ofText source)).source = source ∧
      (modes.foldl next (ofText source)).Faithful := by
  induction modes using List.reverseRecOn with
  | nil => exact ⟨rfl, ofText_faithful source⟩
  | append_singleton modes mode ih =>
    rw [List.foldl_append, List.foldl_cons, List.foldl_nil, next_source]
    exact ⟨ih.1, ih.2.next mode⟩

theorem foldl_next_consistent (source : List Char) (modes : List LexerMode) :
    (modes.foldl next (ofText source)).Consistent source := by
  obtain ⟨hs, hf⟩ := foldl_next_faithful source modes
  have hc := hf.consistent
  rwa [hs] at hc

theorem lastStop_append (source : List Char) (modes : List LexerMode) (mode : LexerMode) :
    lastStop source (modes ++ [mode]) =
      match ((modes.foldl next (ofText source)).next mode).current with
      | some token => token.stop
      | none => lastStop source modes := by
  rw [lastStop, tokensRead_append]
  cases ((modes.foldl next (ofText source)).next mode).current with
  | some token => simp
  | none => simp [lastStop]

/-- Behind the last token handed out there are only trivia up to the cursor. -/
theorem skips_lastStop (source : List Char) (modes : List LexerMode) :
    ∃ place : Cursor, place.offset = lastStop source modes ∧
      dropBytes? place.offset source = some place.rest ∧
      place.Skips (modes.foldl next (ofText source)).cursor := by
  induction modes using List.reverseRecOn with
  | nil => exact ⟨.ofText source, rfl, dropBytes?_zero source, .refl _⟩
  | append_singleton modes mode ih =>
    have hconsistent := foldl_next_consistent source (modes ++ [mode])
    obtain ⟨place, ho, hd, hskips⟩ := ih
    rw [lastStop_append]
    rw [List.foldl_append, List.foldl_cons, List.foldl_nil] at hconsistent ⊢
    rcases next_cases (modes.foldl next (ofText source)) mode with
      ⟨start, kind, lexeme, precedence, gap, hn, -⟩ | ⟨stop, hn, hmore, -⟩ | ⟨stop, hn, hmore, -⟩
    · -- the new token ends at the cursor
      refine ⟨_, ?_, hconsistent.cursor, .refl _⟩
      rw [hn]
      rfl
    · rw [hn]
      exact ⟨place, ho, hd, hskips.trans hmore⟩
    · rw [hn]
      exact ⟨place, ho, hd, hskips.trans hmore⟩

/-- How a token that is handed out, after tokens had been asked for in some modes, stands in the
text. -/
structure HandsOut (source : List Char) (modes : List LexerMode) (after : Lexer) (token : Token) :
    Prop where
  /-- The token is not empty. -/
  nonempty : token.raw.toList ≠ []
  /-- It is the piece of the text between its offsets. -/
  slice : sliceBytes? token.start token.stop source = some token.raw.toList
  /-- Its value is a piece of it. -/
  value : token.value.toList <:+: token.raw.toList
  /-- The cursor stands behind it. -/
  cursor : token.stop = after.cursor.offset
  /-- It stands behind the last token. -/
  later : lastStop source modes ≤ token.start
  /-- Between the last token and it there are only white space and comments. -/
  between : TriviaBetween source (lastStop source modes) token.start
  /-- It knows whether a line feed was passed over on the way to it. -/
  lineFeed : ∃ gap, sliceBytes? (modes.foldl next (ofText source)).cursor.offset token.start source =
    some gap ∧ (token.afterNewline = true ↔ '\n' ∈ gap)

/-- Why no token is handed out: the text has ended, or no rule that is tried matches at the cursor. -/
def Refuses (source : List Char) (rules : List Rule) (after : Lexer) : Prop :=
  (after.exhausted = true ∧ after.cursor.offset = byteLength source) ∨
    (after.exhausted = false ∧ ∀ rule ∈ rules, rule.match? after.cursor.rest = none)

theorem next_handsOut (source : List Char) (modes : List LexerMode) (mode : LexerMode) (token : Token)
    (h : ((modes.foldl next (ofText source)).next mode).current = some token) :
    HandsOut source modes ((modes.foldl next (ofText source)).next mode) token := by
  obtain ⟨hsource, hfaithful⟩ := foldl_next_faithful source modes
  obtain ⟨tokens, htiled⟩ := hfaithful.tiled
  obtain ⟨front, hfront, hcursor⟩ := htiled.splits
  rw [hsource] at hfront
  have hafter := foldl_next_consistent source (modes ++ [mode])
  rw [List.foldl_append, List.foldl_cons, List.foldl_nil] at hafter
  obtain ⟨place, ho, hd, hskips⟩ := skips_lastStop source modes
  rcases next_cases (modes.foldl next (ofText source)) mode with
    ⟨start, kind, lexeme, precedence, gap, hn, hmore, hat, hg, hstart⟩ | ⟨stop, hn, -⟩ |
      ⟨stop, hn, -⟩
  · obtain ⟨hslice, hstop, -⟩ := hafter.current token h
    rw [hn] at h
    cases h
    -- the gap stands behind what was read before, and the token behind the gap
    have hgap : source = front ++ (gap ++ start.rest) := by rw [← hg, ← hfront]
    have hdrop : dropBytes? start.offset source = some start.rest := by
      rw [hstart, hcursor, ← byteLength_append, hgap, ← List.append_assoc]
      exact dropBytes?_append (front ++ gap) start.rest
    have hbetween := hskips.trans hmore
    refine ⟨hat.spans.2.2.1, hslice, hat.value_isInfix, hstop, ?_, ?_, gap, ?_, ?_⟩
    · obtain ⟨passed, -, hpassed⟩ := hbetween.spans
      rw [← ho]
      exact hpassed ▸ Nat.le_add_right _ _
    · rw [TriviaBetween, ← ho]
      exact ⟨place.rest, start.rest, hd, hdrop, hbetween.trivia⟩
    · have hslice := sliceBytes?_append front gap start.rest
      rw [← hgap, ← hcursor, ← hstart] at hslice
      exact hslice
    · exact List.contains_iff_mem
  · rw [hn] at h
    cases h
  · rw [hn] at h
    cases h

theorem next_refuses (source : List Char) (modes : List LexerMode) (mode : LexerMode)
    (h : ((modes.foldl next (ofText source)).next mode).current = none) :
    Refuses source (Rule.tried mode (modes.foldl next (ofText source)).afterOperand)
      ((modes.foldl next (ofText source)).next mode) := by
  have hafter := foldl_next_consistent source (modes ++ [mode])
  rw [List.foldl_append, List.foldl_cons, List.foldl_nil] at hafter
  rcases next_cases (modes.foldl next (ofText source)) mode with
    ⟨start, kind, lexeme, precedence, gap, hn, -⟩ | ⟨stop, hn, -, hfirst⟩ | ⟨stop, hn, -⟩
  · rw [hn] at h
    cases h
  · refine Or.inr ?_
    rw [hn]
    exact ⟨rfl, Rule.first?_eq_none_iff.mp hfirst⟩
  · have hexhausted : ((modes.foldl next (ofText source)).next mode).exhausted = true := by rw [hn]
    exact Or.inl ⟨hexhausted, (hafter.exhausted hexhausted).2⟩

/-- Whatever modes tokens are asked for in: on bytes no slice is at fault, a token that is handed out
stands behind the one before it with only trivia between, and where there is none, the text has ended
or no rule that is tried matches. -/
theorem reading_tiles (source : List Char) (modes : List LexerMode) (mode : LexerMode) :
    let before := modes.foldl next (ofText source)
    let after := before.next mode
    ByteStream.readAll source (modes ++ [mode]) = some after.bytewise ∧
      (∀ token, after.current = some token → HandsOut source modes after token) ∧
      (after.current = none → Refuses source (Rule.tried mode before.afterOperand) after) := by
  intro before after
  refine ⟨?_, next_handsOut source modes mode, next_refuses source modes mode⟩
  rw [ByteStream.readAll_eq, List.foldl_append]
  rfl

end Lexer

end ScriptTree
