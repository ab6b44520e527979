import ScriptTree.Grammar.Operator
import ScriptTree.Proofs.Coverage
import ScriptTree.Proofs.Standing

/-!
Tokens read again.

A token is read again from where it starts, so what stands before it is not seen any more: a line feed
there is forgotten. For an increment at the start of a line, behind an operand, that makes a
difference. Read again it seems to end that operand, and a regular expression behind it is then read as
a division. Nothing else changes when tokens are read again.
-/

namespace ScriptTree

namespace Token

/-- A token as it is read from where it starts, with nothing passed over before it. -/
def alone (token : Token) : Token := { token with afterNewline := false }

/-- Whether an operand ends with a token, behind an operand or not. -/
def closesOperand (token : Token) (afterOperand : Bool) : Bool :=
  token.kind.closesOperand ||
    (afterOperand && !token.afterNewline && Operator.isUpdate token.value) ||
    (token.kind == .templateChunk && token.raw.toList.getLast? == some '\x60')

/-- Whether a token ends an operand only if there is one in front of it, as an increment does on the
line of its operand. -/
def extendsOperand (token : Token) : Bool := token.closesOperand true && !token.closesOperand false

/-- Whether a token would end the operand in front of it if no line feed stood between them. -/
def isDetached (token : Token) : Bool := token.afterNewline && token.alone.extendsOperand

variable {token : Token}

theorem closesOperand_of_false (h : token.closesOperand false = true) :
    token.closesOperand true = true := by
  simp only [closesOperand, Bool.false_and, Bool.or_false, Bool.or_eq_true] at h ⊢
  rcases h with h | h
  · exact Or.inl (Or.inl h)
  · exact Or.inr h

/-- Only for a token that extends an operand it matters whether there is one. -/
theorem closesOperand_of_not_extends (h : token.extendsOperand = false) (afterOperand : Bool) :
    token.closesOperand afterOperand = token.closesOperand false := by
  cases afterOperand with
  | false => rfl
  | true =>
    cases hf : token.closesOperand false with
    | true => exact closesOperand_of_false hf
    | false =>
      rw [extendsOperand, hf] at h
      simpa using h

/-- A token that a line feed cuts off from its operand ends the operand only when it is read alone. -/
theorem closesOperand_of_detached (h : token.isDetached = true) :
    token.closesOperand true = false ∧ token.alone.closesOperand true = true := by
  obtain ⟨hn, he⟩ := Bool.and_eq_true_iff.mp h
  obtain ⟨htrue, hfalse⟩ := Bool.and_eq_true_iff.mp he
  constructor
  · have hcut : token.closesOperand true = token.alone.closesOperand false := by
      simp only [closesOperand, alone, hn, Bool.not_true, Bool.and_false, Bool.false_and]
    rw [hcut]
    simpa using hfalse
  · exact htrue

/-- Any other token ends an operand as before when it is read alone. -/
theorem alone_closesOperand {afterOperand : Bool} (h : (afterOperand && token.isDetached) = false) :
    token.alone.closesOperand afterOperand = token.closesOperand afterOperand := by
  cases hn : token.afterNewline with
  | false =>
    have halone : token.alone = token := by rw [alone, ← hn]
    rw [halone]
  | true =>
    have hcut : token.closesOperand afterOperand = token.alone.closesOperand false := by
      simp only [closesOperand, alone, hn, Bool.not_true, Bool.and_false, Bool.false_and]
    rw [hcut]
    cases afterOperand with
    | false => rfl
    | true =>
      rw [isDetached, hn, Bool.true_and, Bool.true_and] at h
      exact closesOperand_of_not_extends h true

end Token

namespace Rule

/-- The rules that make regular expressions are those that do not match behind an operand. -/
theorem afterOperand_iff : ∀ rule ∈ table, rule.afterOperand = false ↔ rule.kind = .regexLiteral := by
  decide

theorem eq_of_match {candidate rule : Rule} {text : List Char} {lexeme : Lexeme}
    (h : candidate.match? text = some (rule, lexeme)) : rule = candidate := by
  simp only [match?, Option.map_eq_some_iff] at h
  obtain ⟨_, -, he⟩ := h
  cases he
  rfl

theorem appliesIn_true (rule : Rule) (mode : LexerMode) : rule.appliesIn mode true =
    (rule.appliesIn mode false && (rule.afterOperand || mode.regex)) := by
  simp only [appliesIn, Bool.not_true, Bool.not_false, Bool.false_or, Bool.true_or, Bool.and_true]
  ac_rfl

/-- Behind an operand a regular expression is found only in modes in which it starts there. -/
theorem regex_of_first {mode : LexerMode} {text : List Char} {rule : Rule} {lexeme : Lexeme}
    (h : first? mode true text = some (rule, lexeme)) (hk : rule.kind = .regexLiteral) :
    mode.regex = true := by
  obtain ⟨-, hr⟩ := applies_of_first h
  rcases hr with ⟨-, rfl⟩ | ⟨-, hin, ha⟩
  · cases hk
  · rw [appliesIn_true, (afterOperand_iff rule hin).mpr hk, Bool.false_or, Bool.and_eq_true] at ha
    exact ha.2

/-- Behind an operand nothing else is found than elsewhere, but for regular expressions in modes in
which they do not start there. -/
theorem first?_true (mode : LexerMode) (text : List Char) :
    first? mode true text = first? mode false text ∨
      ∃ rule lexeme, first? mode false text = some (rule, lexeme) ∧ rule.kind = .regexLiteral ∧
        mode.regex = false := by
  -- a rule that does not match without an operand does not match behind one
  have hnone {rule : Rule} (hr : (if rule.appliesIn mode false then rule.match? text else none) = none) :
      (if rule.appliesIn mode true then rule.match? text else none) = none := by
    rw [appliesIn_true]
    cases hf : rule.appliesIn mode false with
    | false => rfl
    | true =>
      rw [hf, if_pos rfl] at hr
      rw [hr, ite_self]
  cases htemplate : mode.template with
  | true => exact Or.inl (by simp only [first?, htemplate, if_true])
  | false =>
    have htable : ¬mode.template = true := by simp [htemplate]
    cases hfirst : first? mode false text with
    | none =>
      rw [first?, if_neg htable, List.findSome?_eq_none_iff] at hfirst ⊢
      exact Or.inl fun rule hr => hnone (hfirst rule hr)
    | some found =>
      obtain ⟨rule, lexeme⟩ := found
      obtain ⟨-, hr⟩ := applies_of_first hfirst
      obtain ⟨hin, ha⟩ : rule ∈ table ∧ rule.appliesIn mode false = true := by
        simpa [htemplate] using hr
      cases hgo : rule.afterOperand || mode.regex with
      | true =>
        -- the rules tried before it do not match, and it is tried behind an operand too
        left
        rw [first?, if_neg htable, List.findSome?_eq_some_iff] at hfirst ⊢
        obtain ⟨before, candidate, behind, hsplit, hc, hbefore⟩ := hfirst
        refine ⟨before, candidate, behind, hsplit, ?_, fun other ho => hnone (hbefore other ho)⟩
        obtain rfl : rule = candidate := by
          split at hc
          · exact eq_of_match hc
          · cases hc
        rw [ha, if_pos rfl] at hc
        rw [appliesIn_true, ha, hgo]
        exact hc
      | false =>
        obtain ⟨hno, hregex⟩ := Bool.or_eq_false_iff.mp hgo
        exact Or.inr ⟨rule, lexeme, rfl, (afterOperand_iff rule hin).mp hno, hregex⟩

end Rule

namespace Lexer

/-- What comes next in a mode. -/
def ahead (lexer : Lexer) (mode : LexerMode) : Sighting :=
  seek mode lexer.afterOperand (lexer.cursor.rest.length + 1) lexer.cursor false

theorem next_eq_behind (lexer : Lexer) (mode : LexerMode) :
    lexer.next mode = lexer.behind (lexer.ahead mode) := next_eq_nextFrom lexer mode

/-- The tokens that are handed out, or not, when they are asked for one after the other. -/
def outcomes (lexer : Lexer) : List LexerMode → List (Option Token)
  | [] => []
  | mode :: modes => (lexer.next mode).current :: (lexer.next mode).outcomes modes

/-- A token that has been found is found again where it starts, and a line feed that was passed over
is not seen there. -/
theorem seek_at_start {mode : LexerMode} {afterOperand newline newline' : Bool} {fuel : Nat}
    {place start : Cursor} {kind : TokenKind} {lexeme : Lexeme} {precedence : Option Nat}
    (h : seek mode afterOperand fuel place newline = .token start kind lexeme precedence newline')
    (fuel' : Nat) (newline'' : Bool) :
    seek mode afterOperand (fuel' + 1) start newline'' =
      .token start kind lexeme precedence newline'' := by
  induction fuel generalizing place newline with
  | zero => cases h
  | succ fuel ih =>
    rw [seek] at h
    split at h
    · cases h
    · rename_i hne
      split at h
      · cases h
      · rename_i rule found hfirst
        split at h
        · rename_i ht
          split at h
          · rename_i he
            cases h
            rw [seek, if_neg hne, hfirst]
            simp only [ht, he, if_true]
          · exact ih h
        · rename_i ht
          cases h
          rw [seek, if_neg hne, hfirst]
          simp only [ht]
          rfl

theorem regex_of_seek {mode : LexerMode} {fuel : Nat} {place start : Cursor} {newline newline' : Bool}
    {lexeme : Lexeme} {precedence : Option Nat}
    (h : seek mode true fuel place newline = .token start .regexLiteral lexeme precedence newline') :
    mode.regex = true := by
  induction fuel generalizing place newline with
  | zero => cases h
  | succ fuel ih =>
    rw [seek] at h
    split at h
    · cases h
    · split at h
      · cases h
      · rename_i rule found hfirst
        split at h
        · split at h
          · cases h
          · exact ih h
        · obtain hk : rule.kind = .regexLiteral := (Sighting.token.inj h).2.1
          exact Rule.regex_of_first hfirst hk

/-- Behind an operand nothing else comes next than elsewhere, but for regular expressions in modes in
which they do not start there. -/
theorem seek_true (mode : LexerMode) (fuel : Nat) (place : Cursor) (newline : Bool) :
    seek mode true fuel place newline = seek mode false fuel place newline ∨
      mode.regex = false ∧ ∃ start lexeme precedence newline',
        seek mode false fuel place newline = .token start .regexLiteral lexeme precedence newline' := by
  induction fuel generalizing place newline with
  | zero => exact Or.inl rfl
  | succ fuel ih =>
    by_cases hempty : place.rest.isEmpty = true
    · exact Or.inl (by simp only [seek, hempty, if_true])
    rcases Rule.first?_true mode place.rest with hsame | ⟨rule, lexeme, hfirst, hk, hregex⟩
    · cases hfirst : Rule.first? mode false place.rest with
      | none =>
        rw [hfirst] at hsame
        exact Or.inl (by simp only [seek, hfirst, hsame])
      | some found =>
        obtain ⟨rule, lexeme⟩ := found
        rw [hfirst] at hsame
        simp only [seek, hempty, hfirst, hsame, Bool.false_eq_true, if_false]
        split
        · split
          · exact Or.inl rfl
          · exact ih _ _
        · exact Or.inl rfl
    · refine Or.inr ⟨hregex, place, lexeme, rule.precedence, newline, ?_⟩
      simp only [seek, hempty, hfirst, hk]
      rfl

theorem emit_afterOperand (lexer : Lexer) (start : Cursor) (kind : TokenKind) (lexeme : Lexeme)
    (precedence : Option Nat) (newline : Bool) :
    (lexer.emit start kind lexeme precedence newline).afterOperand =
      (Token.ofLexeme start kind lexeme precedence newline).closesOperand lexer.afterOperand := by
  have hspelling (spelling : List Char) :
      (String.ofList lexeme.value == String.ofList spelling) = (lexeme.value == spelling) := by
    rw [Bool.eq_iff_iff, beq_iff_eq, beq_iff_eq, String.ofList_inj]
  have hupdate : Operator.isUpdate (String.ofList lexeme.value) =
      (lexeme.value == ['+', '+'] || lexeme.value == ['-', '-']) := by
    rw [← hspelling, ← hspelling]
    rfl
  change tokenClosesOperand lexer.afterOperand kind lexeme newline = _
  simp only [Token.closesOperand, Token.ofLexeme, String.toList_ofList, hupdate, tokenClosesOperand]

/-- A token that has been handed out is handed out again by any stream that stands where it starts,
behind an operand as before or not. -/
theorem next_again {lexer : Lexer} {mode : LexerMode} {token : Token}
    (h : (lexer.next mode).current = some token) :
    (lexer.next mode).afterOperand = token.closesOperand lexer.afterOperand ∧
      ∃ start closes, (lexer.next mode).history = ⟨start, closes⟩ :: lexer.history ∧
        ∀ other : Lexer, other.cursor = start → other.afterOperand = lexer.afterOperand →
          (other.next mode).current = some token.alone ∧
          (other.next mode).cursor = (lexer.next mode).cursor ∧
          (other.next mode).afterOperand = token.alone.closesOperand lexer.afterOperand := by
  rw [next_eq_behind] at h ⊢
  cases hs : lexer.ahead mode with
  | token start kind lexeme precedence newline =>
    rw [hs] at h
    cases h
    refine ⟨emit_afterOperand lexer start kind lexeme precedence newline, start, _, rfl, ?_⟩
    intro other hc ho
    have hahead : other.ahead mode = .token start kind lexeme precedence false := by
      rw [ahead, hc, ho]
      exact seek_at_start hs _ false
    rw [next_eq_behind, hahead]
    refine ⟨rfl, rfl, ?_⟩
    rw [← ho]
    exact emit_afterOperand other start kind lexeme precedence false
  | stuck place =>
    rw [hs] at h
    cases h
  | finished place =>
    rw [hs] at h
    cases h

/-- Two streams at one place, behind an operand or not alike, go on alike. -/
theorem next_alike {lexer other : Lexer} (hc : other.cursor = lexer.cursor)
    (ho : other.afterOperand = lexer.afterOperand) (mode : LexerMode) :
    (other.next mode).current = (lexer.next mode).current ∧
      (other.next mode).cursor = (lexer.next mode).cursor ∧
      (other.next mode).afterOperand = (lexer.next mode).afterOperand := by
  have hahead : other.ahead mode = lexer.ahead mode := by rw [ahead, ahead, hc, ho]
  rw [next_eq_behind, next_eq_behind, hahead]
  cases lexer.ahead mode with
  | token start kind lexeme precedence newline =>
    refine ⟨rfl, rfl, ?_⟩
    change tokenClosesOperand other.afterOperand kind lexeme newline = _
    rw [ho]
    rfl
  | stuck place => exact ⟨rfl, rfl, ho⟩
  | finished place => exact ⟨rfl, rfl, ho⟩

theorem outcomes_alike {lexer other : Lexer} (hc : other.cursor = lexer.cursor)
    (ho : other.afterOperand = lexer.afterOperand) (modes : List LexerMode) :
    other.outcomes modes = lexer.outcomes modes := by
  induction modes generalizing lexer other with
  | nil => rfl
  | cons mode modes ih =>
    obtain ⟨hcurrent, hc', ho'⟩ := next_alike hc ho mode
    rw [outcomes, outcomes, hcurrent, ih hc' ho']

/-- Two streams at one place, of which only the second one stands behind an operand. -/
structure Parted (lexer other : Lexer) : Prop where
  cursor : other.cursor = lexer.cursor
  without : lexer.afterOperand = false
  behind : other.afterOperand = true

/-- How two such streams go on: with a regular expression that only the first one reads, with the same
token, or with none. -/
theorem Parted.next {lexer other : Lexer} (h : lexer.Parted other) (mode : LexerMode) :
    (∃ token, (lexer.next mode).current = some token ∧ token.kind = .regexLiteral ∧
        mode.regex = false ∧ (other.next mode).current ≠ some token) ∨
      (∃ token, (lexer.next mode).current = some token ∧ (other.next mode).current = some token ∧
        (other.next mode).cursor = (lexer.next mode).cursor ∧
        (lexer.next mode).afterOperand = token.closesOperand false ∧
        (other.next mode).afterOperand = token.closesOperand true ∧
        (token.kind = .regexLiteral → mode.regex = true)) ∨
      ((lexer.next mode).current = none ∧ (other.next mode).current = none ∧
        (lexer.next mode).Parted (other.next mode)) := by
  have hseek := seek_true mode (lexer.cursor.rest.length + 1) lexer.cursor false
  have hlexer : lexer.ahead mode =
      seek mode false (lexer.cursor.rest.length + 1) lexer.cursor false := by rw [ahead, h.without]
  have hother : other.ahead mode =
      seek mode true (lexer.cursor.rest.length + 1) lexer.cursor false := by
    rw [ahead, h.behind, h.cursor]
  rw [← hlexer, ← hother] at hseek
  rcases hseek with hsame | ⟨hregex, start, lexeme, precedence, newline, hfound⟩
  · rw [next_eq_behind, next_eq_behind, hsame]
    cases hs : lexer.ahead mode with
    | token start kind lexeme precedence newline =>
      refine Or.inr (Or.inl ⟨_, rfl, rfl, rfl, ?_, ?_, ?_⟩)
      · rw [← h.without]
        exact emit_afterOperand lexer start kind lexeme precedence newline
      · rw [← h.behind]
        exact emit_afterOperand other start kind lexeme precedence newline
      · intro hk
        obtain rfl : kind = .regexLiteral := hk
        rw [← hsame, hother] at hs
        exact regex_of_seek hs
    | stuck place => exact Or.inr (Or.inr ⟨rfl, rfl, rfl, h.without, h.behind⟩)
    | finished place => exact Or.inr (Or.inr ⟨rfl, rfl, rfl, h.without, h.behind⟩)
  · -- the other stream finds no regular expression here
    rw [next_eq_behind, next_eq_behind, hfound]
    refine Or.inl ⟨_, rfl, rfl, hregex, ?_⟩
    cases hs : other.ahead mode with
    | token start' kind lexeme' precedence' newline' =>
      intro heq
      obtain rfl : kind = .regexLiteral := congrArg Token.kind (Option.some.inj heq)
      rw [hother] at hs
      rw [regex_of_seek hs] at hregex
      cases hregex
    | stuck place => exact nofun
    | finished place => exact nofun

/-- Whether the next tokens that are asked for come to a regular expression, in a mode in which none
starts behind an operand, before anything else than tokens that would extend an operand. -/
def meetsRegex (lexer : Lexer) : List LexerMode → Bool
  | [] => false
  | mode :: modes =>
    match (lexer.next mode).current with
    | none => (lexer.next mode).meetsRegex modes
    | some token => (token.kind == .regexLiteral && !mode.regex) ||
        (token.extendsOperand && (lexer.next mode).meetsRegex modes)

/-- It can be told whether a stream stands behind an operand only by a regular expression. -/
theorem Parted.outcomes_iff {lexer other : Lexer} (h : lexer.Parted other) (modes : List LexerMode) :
    other.outcomes modes = lexer.outcomes modes ↔ lexer.meetsRegex modes = false := by
  induction modes generalizing lexer other with
  | nil => exact iff_of_true rfl rfl
  | cons mode modes ih =>
    rw [outcomes, outcomes, meetsRegex, List.cons.injEq]
    rcases h.next mode with ⟨token, hl, hk, hregex, ho⟩ | ⟨token, hl, ho, hc, hfalse, htrue, hk⟩ |
      ⟨hl, ho, hparted⟩
    · rw [hl]
      refine iff_of_false (fun hsame => ho hsame.1) ?_
      simp [hk, hregex]
    · have hno : (token.kind == .regexLiteral && !mode.regex) = false := by
        rw [Bool.eq_false_iff]
        intro hyes
        simp only [Bool.and_eq_true, beq_iff_eq, Bool.not_eq_true'] at hyes
        rw [hk hyes.1] at hyes
        cases hyes.2
      rw [hl, ho]
      dsimp only
      rw [hno, Bool.false_or]
      cases he : token.extendsOperand with
      | true =>
        -- one of the two streams still stands behind an operand, the other one does not
        obtain ⟨ht, hf⟩ := Bool.and_eq_true_iff.mp he
        have hparted : (lexer.next mode).Parted (other.next mode) :=
          ⟨hc, hfalse.trans (by simpa using hf), htrue.trans ht⟩
        rw [ih hparted, Bool.true_and]
        exact and_iff_right rfl
      | false =>
        have hsame := Token.closesOperand_of_not_extends he true
        rw [outcomes_alike hc (by rw [hfalse, htrue, hsame])]
        exact iff_of_true ⟨rfl, rfl⟩ rfl
    · rw [ih hparted, hl, ho]
      exact and_iff_right rfl

/-- What follows when a token has been read again, by a stream at the same place: the same, unless the
token was cut off from its operand and a regular expression is met. -/
theorem outcomes_again_iff {lexer other : Lexer} {token : Token} {afterOperand : Bool}
    (hc : other.cursor = lexer.cursor) (hl : lexer.afterOperand = token.closesOperand afterOperand)
    (ho : other.afterOperand = token.alone.closesOperand afterOperand) (modes : List LexerMode) :
    other.outcomes modes = lexer.outcomes modes ↔
      ¬(afterOperand = true ∧ token.isDetached = true ∧ lexer.meetsRegex modes = true) := by
  cases hd : afterOperand && token.isDetached with
  | true =>
    obtain ⟨rfl, hdetached⟩ := Bool.and_eq_true_iff.mp hd
    obtain ⟨hfalse, htrue⟩ := Token.closesOperand_of_detached hdetached
    have hparted : lexer.Parted other := ⟨hc, hl.trans hfalse, ho.trans htrue⟩
    rw [hparted.outcomes_iff]
    simp [hdetached]
  | false =>
    have hsame : other.afterOperand = lexer.afterOperand := by
      rw [hl, ho, Token.alone_closesOperand hd]
    refine iff_of_true (outcomes_alike hc hsame modes) ?_
    rintro ⟨rfl, hdetached, -⟩
    rw [hdetached] at hd
    cases hd

/-- A stream that has read two tokens can step back and read them again, or read the last one again.
It finds the same tokens, but does not see line feeds before the one that it goes back to. What follows
differs only where that token would extend the operand in front of it, were there no line feed, and a
regular expression follows: that is then read as a division. -/
theorem reads_again_iff {lexer : Lexer} {mode mode' : LexerMode} {token token' : Token}
    (h : (lexer.next mode).current = some token)
    (h' : ((lexer.next mode).next mode').current = some token') :
    (∃ back, ((lexer.next mode).next mode').stepBack? mode = some back ∧
      back.current = some token.alone ∧
      ((back.next mode').current = some token' ↔
        ¬(lexer.afterOperand = true ∧ token.isDetached = true ∧ token'.kind = .regexLiteral ∧
          mode'.regex = false))) ∧
    (((lexer.next mode).next mode').reread mode').current = some token'.alone ∧
    ∀ modes, (((lexer.next mode).next mode').reread mode').outcomes modes =
        ((lexer.next mode).next mode').outcomes modes ↔
      ¬((lexer.next mode).afterOperand = true ∧ token'.isDetached = true ∧
        ((lexer.next mode).next mode').meetsRegex modes = true) := by
  obtain ⟨ha, start, closes, hhistory, hagain⟩ := next_again h
  obtain ⟨ha', start', closes', hhistory', hagain'⟩ := next_again h'
  constructor
  · -- the stream goes back to where the first token starts
    let rewound : Lexer :=
      { (lexer.next mode).next mode' with cursor := start, history := lexer.history }
    obtain ⟨hcurrent, hcursor, hoperand⟩ := hagain rewound rfl rfl
    refine ⟨rewound.next mode, ?_, hcurrent, ?_⟩
    · rw [stepBack?, hhistory', hhistory]
    · have hnext := outcomes_again_iff hcursor ha hoperand [mode']
      simpa [outcomes, meetsRegex, h'] using hnext
  · -- the stream goes back to where the second token starts
    let rewound : Lexer :=
      { (lexer.next mode).next mode' with cursor := start', history := (lexer.next mode).history }
    obtain ⟨hcurrent, hcursor, hoperand⟩ := hagain' rewound rfl rfl
    have hreread : ((lexer.next mode).next mode').reread mode' = rewound.next mode' := by
      unfold reread
      split
      · rename_i last history _ hlast
        rw [hhistory'] at hlast
        cases hlast
        rfl
      · rename_i hnone
        exact absurd hhistory' (hnone token' _ _ h')
    rw [hreread]
    exact ⟨hcurrent, outcomes_again_iff hcursor ha' hoperand⟩

/-- An increment at the start of a line and a regular expression behind it: the increment is read
again, and the regular expression is not. -/
theorem reads_again_increment :
    let lexer := (ofText "a\n++/b/".toList).next .default
    let increment : Token := ⟨.operator, "++", "++", 2, 4, some 16, true⟩
    let regex : Token := ⟨.regexLiteral, "/b/", "/b/", 4, 7, none, false⟩
    (lexer.next .default).current = some increment ∧
      ((lexer.next .default).next .default).current = some regex ∧
      ∃ back, ((lexer.next .default).next .default).stepBack? .default = some back ∧
        back.current = some increment.alone ∧ (back.next .default).current ≠ some regex := by
  intro lexer increment regex
  have h : (lexer.next .default).current = some increment := by decide
  have h' : ((lexer.next .default).next .default).current = some regex := by decide
  obtain ⟨⟨back, hback, hcurrent, hnext⟩, -⟩ := reads_again_iff h h'
  refine ⟨h, h', back, hback, hcurrent, ?_⟩
  rw [Ne, hnext, not_not]
  decide

end Lexer

end ScriptTree
