import ScriptTree.Token.Lexer

/-!
The end of the text is told from text that cannot be read: a stream that claims to be exhausted has
nothing left to read.
-/

namespace ScriptTree

namespace Rule

theorem raw_ne_nil_of_match {rule found : Rule} {text : List Char} {lexeme : Lexeme}
    (h : rule.match? text = some (found, lexeme)) : lexeme.raw ≠ [] := by
  simp only [match?, Option.map_eq_some_iff, Option.filter_eq_some_iff] at h
  obtain ⟨l, ⟨-, hl⟩, he⟩ := h
  cases he
  simpa using hl

theorem raw_ne_nil_of_first {mode : LexerMode} {afterOperand : Bool} {text : List Char}
    {rule : Rule} {lexeme : Lexeme} (h : first? mode afterOperand text = some (rule, lexeme)) :
    lexeme.raw ≠ [] := by
  unfold first? at h
  split at h
  · exact raw_ne_nil_of_match h
  · obtain ⟨candidate, -, hc⟩ := List.exists_of_findSome?_eq_some h
    split at hc
    · exact raw_ne_nil_of_match hc
    · cases hc

end Rule

namespace Lexer

/-- A stream that claims to be exhausted has nothing left to read. -/
def Truthful (lexer : Lexer) : Prop := lexer.exhausted = true → lexer.cursor.rest = []

/-- With enough fuel, the search for a token gives up only where nothing is left. -/
theorem rest_eq_nil_of_seek_finished {mode : LexerMode} {afterOperand newline : Bool} {fuel : Nat}
    {place stop : Cursor} (hf : place.rest.length < fuel)
    (h : seek mode afterOperand fuel place newline = .finished stop) : stop.rest = [] := by
  induction fuel generalizing place newline with
  | zero => exact absurd hf (Nat.not_lt_zero _)
  | succ fuel ih =>
    rw [seek] at h
    split at h
    · rename_i he
      cases h
      exact List.isEmpty_iff.mp he
    · rename_i he
      split at h
      · cases h
      · rename_i rule lexeme hr
        split at h
        · split at h
          · cases h
          · refine ih ?_ h
            -- what is passed over is not empty, so less than the fuel is left
            have hn := List.length_pos_iff.mpr (Rule.raw_ne_nil_of_first hr)
            have hp : place.rest.length ≠ 0 := fun h0 =>
              he (List.isEmpty_iff.mpr (List.length_eq_zero_iff.mp h0))
            simp only [Cursor.advance, List.length_drop]
            omega
        · cases h

theorem next_truthful (lexer : Lexer) (mode : LexerMode) : (lexer.next mode).Truthful := by
  intro hx
  unfold next at hx ⊢
  cases hs : seek mode lexer.afterOperand (lexer.cursor.rest.length + 1) lexer.cursor false with
  | token => simp [hs, emit] at hx
  | stuck => simp [hs] at hx
  | finished stop =>
    have h := rest_eq_nil_of_seek_finished (Nat.lt_succ_self _) hs
    simpa [hs] using h

theorem reread_truthful (lexer : Lexer) (mode : LexerMode) : (lexer.reread mode).Truthful := by
  unfold reread
  split
  · exact next_truthful _ mode
  · exact next_truthful lexer mode

theorem next_of_rest_nil {lexer : Lexer} (h : lexer.cursor.rest = []) (mode : LexerMode) :
    lexer.next mode = { lexer with current := none, exhausted := true } := by
  have hs : seek mode lexer.afterOperand (lexer.cursor.rest.length + 1) lexer.cursor false =
      .finished lexer.cursor := by
    rw [seek, h]
    rfl
  simp only [next, hs]

end Lexer

end ScriptTree
