import ScriptTree.Proofs.ArrowFree
import ScriptTree.Proofs.Brackets

/-!
What one token does to reading ahead: where it starts and ends, what it decides and what it opens or
closes.
-/

namespace ScriptTree

namespace Lexer

/-- A token starts behind the cursor, and the cursor then stands behind the token. -/
theorem next_offsets {lexer : Lexer} {mode : LexerMode} {token : Token}
    (h : (lexer.next mode).current = some token) : lexer.cursor.offset ≤ token.start ∧
      token.start < (lexer.next mode).cursor.offset := by
  have hlead := seek_leads mode lexer.afterOperand (lexer.cursor.rest.length + 1) lexer.cursor false
  unfold next at h ⊢
  cases hs : seek mode lexer.afterOperand (lexer.cursor.rest.length + 1) lexer.cursor false with
  | token start kind lexeme precedence newline =>
    rw [hs] at h hlead
    cases h
    obtain ⟨hskip, hat⟩ := hlead
    -- trivia before the token only add to the offset, and the token is not empty
    obtain ⟨gap, -, hgap⟩ := hskip.spans
    obtain ⟨-, -, hne, -⟩ := hat.spans
    have hraw : lexeme.raw ≠ [] := by simpa [Token.ofLexeme] using hne
    obtain ⟨c, raw, hc⟩ := List.exists_cons_of_ne_nil hraw
    have hpos := c.utf8Size_pos
    constructor
    · change lexer.cursor.offset ≤ start.offset
      omega
    · change start.offset < start.offset + byteLength lexeme.raw
      rw [hc, byteLength]
      omega
  | stuck place =>
    rw [hs] at h
    cases h
  | finished place =>
    rw [hs] at h
    cases h

/-- No operand ends with an opening parenthesis. -/
theorem afterOperand_of_openParen {lexer : Lexer} {mode : LexerMode} {token : Token}
    (h : (lexer.next mode).current = some token) (hk : token.kind = .openParen) :
    (lexer.next mode).afterOperand = false := by
  have hlead := seek_leads mode lexer.afterOperand (lexer.cursor.rest.length + 1) lexer.cursor false
  unfold next at h ⊢
  cases hs : seek mode lexer.afterOperand (lexer.cursor.rest.length + 1) lexer.cursor false with
  | token start kind lexeme precedence newline =>
    rw [hs] at h hlead
    cases h
    have hkind : kind = .openParen := hk
    subst hkind
    obtain ⟨hraw, -⟩ := hlead.2.of_openParen rfl
    -- the value is a part of the spelling, which is too short for an increment
    have hlen : lexeme.value.length ≤ 1 := by
      have hl : lexeme.raw = ['('] := by simpa [Token.ofLexeme] using congrArg String.toList hraw
      have hsum := congrArg List.length hl
      simp only [Lexeme.raw, List.length_append, List.length_cons, List.length_nil] at hsum
      omega
    have hplus : lexeme.value ≠ ['+', '+'] := by
      intro he
      rw [he] at hlen
      exact absurd hlen (by decide)
    have hminus : lexeme.value ≠ ['-', '-'] := by
      intro he
      rw [he] at hlen
      exact absurd hlen (by decide)
    change tokenClosesOperand lexer.afterOperand .openParen lexeme newline = false
    simp [tokenClosesOperand, TokenKind.closesOperand, hplus, hminus]
  | stuck place =>
    rw [hs] at h
    cases h
  | finished place =>
    rw [hs] at h
    cases h

end Lexer

theorem Trivia.length_le {text rest : List Char} (h : Trivia text rest) :
    rest.length ≤ text.length := by
  induction h with
  | none => exact le_refl _
  | space _ _ ih =>
    rw [List.length_cons]
    omega
  | blockComment _ _ ih | lineComment _ _ _ ih =>
    simp only [List.length_cons, List.length_append]
    omega

namespace Lookahead

section Following

variable (ahead : Lookahead) (token : Token)

theorem mem_answers {offset : Nat} {answer : Bool} : (offset, answer) ∈ ahead.answers ↔
    answer = false ∧ (ahead.closed = some offset ∨ offset ∈ ahead.openParens) ∨
      (offset, answer) ∈ ahead.decided := by
  simp only [answers, List.mem_append, List.mem_map, Option.mem_toList, Prod.mk.injEq]
  grind

theorem lookup_answers (offset : Nat) : ahead.answers.lookup offset =
    if ahead.closed = some offset ∨ offset ∈ ahead.openParens then some false
    else ahead.decided.lookup offset := by
  have hmap (offsets : List Nat) : (offsets.map fun paren => (paren, false)).lookup offset =
      if offset ∈ offsets then some false else none := by
    induction offsets with
    | nil => rfl
    | cons paren offsets ih =>
      rw [List.map_cons, List.lookup_cons, ih]
      by_cases hp : offset = paren
      · simp [hp]
      · have hb : (offset == paren) = false := beq_eq_false_iff_ne.mpr hp
        simp [hb, hp]
  rw [answers, List.lookup_append, hmap]
  have hmem : offset ∈ ahead.closed.toList ++ ahead.openParens ↔
      ahead.closed = some offset ∨ offset ∈ ahead.openParens := by
    rw [List.mem_append, Option.mem_toList]
  by_cases hin : ahead.closed = some offset ∨ offset ∈ ahead.openParens
  · rw [if_pos hin, if_pos (hmem.mpr hin), Option.some_or]
  · rw [if_neg hin, if_neg (mt hmem.mp hin), Option.none_or]

theorem mem_decideClosed {entry : Nat × Bool} : entry ∈ (ahead.decideClosed token).decided ↔
    ahead.closed = some entry.1 ∧ entry.2 = (token.kind == .arrow) ∨ entry ∈ ahead.decided := by
  obtain ⟨offset, answer⟩ := entry
  simp only [decideClosed, List.mem_append, List.mem_map, Option.mem_toList, Prod.mk.injEq]
  grind

/-- A token opens at most the parenthesis that it is. -/
theorem mem_follow {offset : Nat} (h : offset ∈ (ahead.follow token).openParens) :
    offset = token.start ∧ token.kind = .openParen ∨ offset ∈ ahead.openParens := by
  unfold follow at h
  split at h
  · rename_i hk
    exact (List.mem_cons.mp h).imp_left fun ho => ⟨ho, hk⟩
  · exact Or.inr (List.mem_of_mem_tail h)
  · exact Or.inr h
  · split at h <;> exact Or.inr h
  · exact Or.inr h
  · split at h <;> exact Or.inr h
  · exact Or.inr h

/-- An open parenthesis stays open, or the token closes it. -/
theorem open_follow {offset : Nat} (h : offset ∈ ahead.openParens) :
    (ahead.follow token).closed = some offset ∨ offset ∈ (ahead.follow token).openParens := by
  unfold follow
  split
  · exact Or.inr (List.mem_cons_of_mem _ h)
  · cases ho : ahead.openParens with
    | nil =>
      rw [ho] at h
      cases h
    | cons first others =>
      rw [ho] at h
      exact (List.mem_cons.mp h).imp_left fun he => congrArg some he.symm
  · exact Or.inr h
  · split <;> exact Or.inr h
  · exact Or.inr h
  · split <;> exact Or.inr h
  · exact Or.inr h

theorem closed_follow {offset : Nat} (h : (ahead.follow token).closed = some offset) :
    ahead.closed = some offset ∨ offset ∈ ahead.openParens ∧ token.kind = .closeParen := by
  unfold follow at h
  split at h
  · exact Or.inl h
  · rename_i hk
    exact Or.inr ⟨List.mem_of_mem_head? h, hk⟩
  · exact Or.inl h
  · split at h <;> exact Or.inl h
  · exact Or.inl h
  · split at h <;> exact Or.inl h
  · exact Or.inl h

theorem follow_of_isPlain (h : token.kind.isPlain = true) : ahead.follow token = ahead := by
  unfold follow
  split <;> first | rfl | (rename_i hk; rw [hk] at h; cases h)

end Following

/-- A point of reading ahead: the rounds that are left, what is known, and the stream of tokens. -/
structure Position where
  /-- The rounds that are left. -/
  rounds : Nat
  /-- What is known. -/
  ahead : Lookahead
  /-- The stream of tokens. -/
  lexer : Lexer

namespace Position

variable {here there last : Position}

/-- What reading on from here comes to. -/
def outcome (here : Position) : Lookahead := scan here.rounds here.ahead here.lexer

/-- There are more rounds than characters. -/
def Enough (here : Position) : Prop := here.lexer.cursor.rest.length < here.rounds

/-- A token is read, and nothing is decided by it yet. -/
structure Reads (here : Position) (token : Token) (rest : List Char) (there : Position) : Prop where
  outcome : here.outcome = there.outcome
  ahead : there.ahead = (here.ahead.decideClosed token).follow token
  before : here.lexer.cursor.offset ≤ token.start
  behind : token.start < there.lexer.cursor.offset
  rest : there.lexer.cursor.rest = rest
  enough : there.Enough

theorem reads_of_emit {place : Cursor} {kind : TokenKind} {lexeme : Lexeme}
    {precedence : Option Nat} {newline : Bool} {rest : List Char} (he : here.Enough)
    (ho : here.ahead.openParens ≠ [])
    (hn : here.lexer.next here.ahead.mode = here.lexer.emit place kind lexeme precedence newline)
    (hs : place.rest = lexeme.raw ++ rest) (hraw : lexeme.raw ≠ [])
    (hl : place.rest.length ≤ here.lexer.cursor.rest.length) :
    here.Reads (.ofLexeme place kind lexeme precedence newline) rest
      ⟨here.rounds - 1,
        (here.ahead.decideClosed (.ofLexeme place kind lexeme precedence newline)).follow
          (.ofLexeme place kind lexeme precedence newline),
        here.lexer.emit place kind lexeme precedence newline⟩ := by
  have hcurrent : (here.lexer.next here.ahead.mode).current =
      some (.ofLexeme place kind lexeme precedence newline) := by
    rw [hn]
    rfl
  obtain ⟨hbefore, hbehind⟩ := Lexer.next_offsets hcurrent
  rw [hn] at hbehind
  have hrest : (here.lexer.emit place kind lexeme precedence newline).cursor.rest = rest := by
    change place.rest.drop lexeme.raw.length = rest
    rw [hs, List.drop_left]
  -- the token uses up a character for the round
  have hlen : rest.length < here.lexer.cursor.rest.length := by
    have hpos := List.length_pos_iff.mpr hraw
    rw [hs, List.length_append] at hl
    omega
  refine ⟨?_, rfl, hbefore, hbehind, hrest, ?_⟩
  · obtain ⟨rounds, hr⟩ : ∃ rounds, here.rounds = rounds + 1 :=
      Nat.exists_eq_succ_of_ne_zero (by
        unfold Enough at he
        omega)
    have hopen : (here.ahead.decideClosed
        (.ofLexeme place kind lexeme precedence newline)).openParens.isEmpty = false := by
      simpa [decideClosed] using ho
    unfold outcome
    rw [hr, scan, hcurrent]
    simp only [hopen, Bool.false_eq_true, if_false, Nat.add_sub_cancel, hn]
  · unfold Enough at he ⊢
    rw [hrest]
    dsimp only
    omega

/-- Behind trivia the token is read that the text starts with. -/
theorem reads_default {start rest : List Char} {rule : Rule} {lexeme : Lexeme} (he : here.Enough)
    (ho : here.ahead.openParens ≠ []) (hm : here.ahead.mode = .default)
    (ht : Trivia here.lexer.cursor.rest start) (hs : start = lexeme.raw ++ rest)
    (hf : Rule.first? .default here.lexer.afterOperand start = some (rule, lexeme))
    (hk : rule.kind.isTrivia = false) :
    ∃ token there gap, here.Reads token rest there ∧ token.kind = rule.kind ∧
      here.lexer.cursor.rest = gap ++ start ∧ there.lexer.afterOperand =
        Lexer.tokenClosesOperand here.lexer.afterOperand rule.kind lexeme (gap.contains '\n') := by
  obtain ⟨place, gap, hp, hg, hn⟩ := Lexer.next_over ht hf hk
  rw [← hm] at hn
  have hraw := Rule.raw_ne_nil_of_first hf
  have hlen := ht.length_le
  rw [← hp] at hlen
  exact ⟨_, _, gap, reads_of_emit he ho hn (hp.trans hs) hraw hlen, rfl, hg, rfl⟩

/-- In a template its text is read. -/
theorem reads_template {body stop rest : List Char} (he : here.Enough)
    (ho : here.ahead.openParens ≠ []) (hm : here.ahead.mode = .templateText)
    (hs : here.lexer.cursor.rest = body ++ stop ++ rest) (hne : stop ≠ [])
    (hf : Scan.templateBody? here.lexer.cursor.rest = some (body, stop)) :
    ∃ token there, here.Reads token rest there ∧ token.kind = .templateChunk ∧
      token.raw = String.ofList (body ++ stop) ∧
      there.lexer.afterOperand = Lexer.tokenClosesOperand here.lexer.afterOperand .templateChunk
        ⟨[], body, stop⟩ false := by
  have hfirst := Rule.first?_templateText hne hf here.lexer.afterOperand
  have hraw : Lexeme.raw ⟨[], body, stop⟩ = body ++ stop := by simp [Lexeme.raw]
  have hin : here.lexer.cursor.rest ≠ [] := by
    rw [hs]
    simp [hne]
  have hn := Lexer.next_template hin hfirst
  rw [← hm] at hn
  refine ⟨_, _, reads_of_emit he ho hn ?_ (Rule.raw_ne_nil_of_first hfirst) (le_refl _), rfl, ?_,
    rfl⟩
  · rw [hraw]
    exact hs
  · rw [← hraw]
    rfl

end Position

end Lookahead

end ScriptTree
