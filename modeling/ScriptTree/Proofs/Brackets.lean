import ScriptTree.Proofs.WholeSource

/-!
The brackets of a text.

Parentheses, braces and templates stand inside each other; what is written in strings, comments,
regular expressions and template text does not count. A slash starts a regular expression or
divides, depending on what is before it. The structure is described here for texts in which the
tokens before it leave no doubt.
-/

namespace ScriptTree

/-- The spellings of the increment and the decrement. -/
def isIncrement (value : List Char) : Bool := value == ['+', '+'] || value == ['-', '-']

/-- Whether an operand has ended with a token, as far as this is known before and the token tells.
A keyword can be the name of a member, a parenthesis can close a condition and a brace can close a
block. An increment belongs to the operand before it, if there is one on the same line. -/
def TokenKind.endsOperand? (before : Option Bool) (kind : TokenKind) (value : List Char)
    (newline : Bool) : Option Bool :=
  match kind with
  | .identifierName | .numericLiteral | .stringLiteral | .regexLiteral | .booleanLiteral
  | .reservedWord | .thisKeyword | .closeBracket => some true
  | .operator =>
    if isIncrement value then before.map fun ended => ended && !newline
    else if value.all Char.isAlpha then before.map fun _ => false
    else some false
  | .newKeyword | .returnKeyword | .elseKeyword | .caseKeyword | .doKeyword =>
    if isIncrement value then none else before.map fun _ => false
  | .openParen | .openBrace | .openBracket | .semicolon | .comma | .colon | .question | .arrow
  | .ellipsis | .assignmentOperator => if isIncrement value then none else some false
  | _ => none

/-- The stream of tokens agrees with what a token tells. -/
theorem Lexer.tokenClosesOperand_of_endsOperand {before : Option Bool} {kind : TokenKind}
    {lexeme : Lexeme} {newline ended afterOperand : Bool}
    (h : ended ∈ kind.endsOperand? before lexeme.value newline)
    (hb : ∀ b ∈ before, afterOperand = b) :
    tokenClosesOperand afterOperand kind lexeme newline = ended := by
  have hspelling : (afterOperand && !newline &&
      (lexeme.value == ['+', '+'] || lexeme.value == ['-', '-'])) =
        (afterOperand && !newline && isIncrement lexeme.value) := rfl
  unfold tokenClosesOperand
  rw [hspelling]
  unfold TokenKind.endsOperand? at h
  split at h
  -- the kinds that end an operand themselves
  iterate 8
    cases h
    rfl
  -- operators, among them the increments
  · split at h
    · rename_i hi
      obtain ⟨b, hbefore, rfl⟩ := Option.map_eq_some_iff.mp h
      simp [hi, hb b hbefore, TokenKind.closesOperand]
    · rename_i hi
      have hended : ended = false := by
        split at h
        · obtain ⟨-, -, rfl⟩ := Option.map_eq_some_iff.mp h
          rfl
        · cases h
          rfl
      simp [hi, hended, TokenKind.closesOperand]
  -- keywords in front of an operand, then the signs
  iterate 5
    split at h
    · cases h
    · rename_i hi
      obtain ⟨-, -, rfl⟩ := Option.map_eq_some_iff.mp h
      simp [hi, TokenKind.closesOperand]
  iterate 10
    split at h
    · cases h
    · rename_i hi
      cases h
      simp [hi, TokenKind.closesOperand]
  cases h

/-- Token kinds without a bracket in them. The token for the head of a loop has one. -/
def TokenKind.isPlain : TokenKind → Bool
  | .openParen | .closeParen | .openBrace | .closeBrace | .backtick | .templateChunk | .forKeyword
  | .whitespace | .comment => false
  | _ => true

/-- What the next characters belong to. -/
inductive Reading where
  /-- Tokens; it may be known whether an operand has ended before. -/
  | tokens (ended : Option Bool)
  /-- Text of a template. -/
  | template

/-- A stretch of text in which all brackets that are opened are closed again, and what is behind
it. A parenthesis behind an operand or an operator belongs to a call or to an operand, and an
operand has ended where it is closed. -/
inductive Stretch : Reading → List Char → List Char → Prop
  | nothing (ended : Option Bool) (text : List Char) : Stretch (.tokens ended) text text
  | token {ended : Option Bool} {gap start rest after : List Char} {rule : Rule} {lexeme : Lexeme} :
    Trivia (gap ++ start) start → start = lexeme.raw ++ rest →
    (∀ afterOperand, (∀ b ∈ ended, afterOperand = b) →
      Rule.first? .default afterOperand start = some (rule, lexeme)) →
    rule.kind.isPlain = true →
    Stretch (.tokens (rule.kind.endsOperand? ended lexeme.value (gap.contains '\n'))) rest after →
    Stretch (.tokens ended) (gap ++ start) after
  | parentheses {ended : Option Bool} {text inner between rest after : List Char} :
    Trivia text ('(' :: inner) → Stretch (.tokens (some false)) inner between →
    Trivia between (')' :: rest) → Stretch (.tokens (ended.map fun _ => true)) rest after →
    Stretch (.tokens ended) text after
  | braces {ended : Option Bool} {text inner between rest after : List Char} :
    Trivia text ('\x7b' :: inner) → Stretch (.tokens (some false)) inner between →
    Trivia between ('\x7d' :: rest) → Stretch (.tokens none) rest after →
    Stretch (.tokens ended) text after
  | template {ended : Option Bool} {text inner rest after : List Char} :
    Trivia text ('\x60' :: inner) → Stretch .template inner rest →
    Stretch (.tokens (some true)) rest after → Stretch (.tokens ended) text after
  | lastText {body rest : List Char} :
    Scan.templateBody? (body ++ '\x60' :: rest) = some (body, ['\x60']) →
    Stretch .template (body ++ '\x60' :: rest) rest
  | substitution {body inner between rest after : List Char} :
    Scan.templateBody? (body ++ '$' :: '\x7b' :: inner) = some (body, ['$', '\x7b']) →
    Stretch (.tokens (TokenKind.openBrace.endsOperand? none body false)) inner between →
    Trivia between ('\x7d' :: rest) → Stretch .template rest after →
    Stretch .template (body ++ '$' :: '\x7b' :: inner) after

/-- The parenthesis before a text is closed, and this is what is behind the closing one. -/
def Closes (inner rest : List Char) : Prop :=
  ∃ between, Stretch (.tokens (some false)) inner between ∧ Trivia between (')' :: rest)

/-- An arrow comes next in a text. -/
def ArrowBehind (text : List Char) : Prop := ∃ rest, Trivia text ('=' :: '>' :: rest)

/-- The brackets, and the kinds of their tokens. -/
def brackets : List (Char × TokenKind) :=
  [('(', .openParen), (')', .closeParen), ('\x7b', .openBrace), ('\x7d', .closeBrace),
   ('\x60', .backtick)]

namespace Rule

/-- The rule for a bracket. -/
def bracket (entry : Char × TokenKind) : Rule := punctuators entry.2 [entry.1.toString]

theorem startingWith_bracket : ∀ entry ∈ brackets, startingWith entry.1 = [bracket entry] := by
  simp only [brackets, List.forall_mem_cons]
  exact ⟨startingWith_of_lookup rfl, startingWith_of_lookup rfl, startingWith_of_lookup rfl,
    startingWith_of_lookup rfl, startingWith_of_lookup rfl, List.forall_mem_nil _⟩

/-- A bracket is a token of its own, wherever tokens are read. -/
theorem first?_bracket {entry : Char × TokenKind} (h : entry ∈ brackets) (afterOperand : Bool)
    (rest : List Char) : first? .default afterOperand (entry.1 :: rest) =
      some (bracket entry, .whole [entry.1]) := by
  refine first?_of_startingWith rfl (startingWith_bracket entry h) ?_
  simp [bracket, punctuators, appliesIn, LexerMode.default, LexerMode.looksFor, match?,
    Pattern.apply, afterSpelling?, Lexeme.whole, Lexeme.raw]

theorem first?_arrow (afterOperand : Bool) (rest : List Char) :
    first? .default afterOperand ('=' :: '>' :: rest) =
      some (punctuators .arrow ["=>"], .whole ['=', '>']) := by
  cases afterOperand <;> exact first?_of_startingWith rfl (startingWith_of_lookup rfl) rfl

/-- In a template the next piece of its text is a token. -/
theorem first?_templateText {text body stop : List Char} (hs : stop ≠ [])
    (h : Scan.templateBody? text = some (body, stop)) (afterOperand : Bool) :
    first? .templateText afterOperand text = some (templateChunk, ⟨[], body, stop⟩) := by
  simp [first?, LexerMode.templateText, templateChunk, match?, form, Pattern.apply,
    LexicalForm.match?, Scan.templateChunk, h, Lexeme.raw, hs]

end Rule

namespace Lexer

/-- The search goes over trivia to the token behind them, and finds the line feeds in between. -/
theorem seek_over {afterOperand newline : Bool} {fuel : Nat} {place : Cursor} {start : List Char}
    {rule : Rule} {lexeme : Lexeme} (h : Trivia place.rest start)
    (hf : Rule.first? .default afterOperand start = some (rule, lexeme))
    (ht : rule.kind.isTrivia = false) (hfuel : place.rest.length < fuel) :
    ∃ (stop : Cursor) (gap : List Char), stop.rest = start ∧ place.rest = gap ++ start ∧
      seek .default afterOperand fuel place newline =
        .token stop rule.kind lexeme rule.precedence (newline || gap.contains '\n') := by
  have hne : start ≠ [] := by
    rintro rfl
    have hp := Rule.first?_isPrefix hf
    exact Rule.raw_ne_nil_of_first hf (List.prefix_nil.mp hp)
  -- the token is no trivia, so the search does not stop in front of white space
  have hsolid : startsSolid start = true := by
    obtain ⟨c, text, rfl⟩ := List.exists_cons_of_ne_nil hne
    by_contra hspace
    have hc : isSpace c = true := by simpa [startsSolid] using hspace
    rw [Rule.first?_of_isSpace hc] at hf
    cases hf
    cases ht
  induction fuel generalizing place newline with
  | zero => exact absurd hfuel (Nat.not_lt_zero _)
  | succ fuel ih =>
    have hin : place.rest ≠ [] := by
      intro h0
      rw [h0] at h
      cases h
      exact hne rfl
    have hnotEmpty : place.rest.isEmpty = false := by simpa using hin
    rw [seek, hnotEmpty]
    by_cases hhere : place.rest = start
    · refine ⟨place, [], hhere, hhere, ?_⟩
      simp [hhere, hf, ht]
    · -- one piece of trivia is passed over, and the token is behind what is left
      obtain ⟨found, piece, rest, hfirst, htrivia, hs, hrest⟩ :=
        Rule.first?_of_trivia h hsolid hhere afterOperand
      have hpos := List.length_pos_iff.mpr (Rule.raw_ne_nil_of_first hfirst)
      have hd : (place.advance piece.raw).rest = rest := by
        rw [Cursor.advance, hs, List.drop_left]
      have hshort : (place.advance piece.raw).rest.length < fuel := by
        have hl := congrArg List.length hs
        rw [List.length_append] at hl
        rw [hd]
        omega
      have hend : endsLine .default found.kind piece.raw = false := rfl
      obtain ⟨stop, gap, hstop, hgap, hseek⟩ :=
        @ih (newline || piece.raw.contains '\n') _ (hd ▸ hrest) hshort
      refine ⟨stop, piece.raw ++ gap, hstop, ?_, ?_⟩
      · rw [hs, ← hd, hgap, List.append_assoc]
      · simp only [hfirst, htrivia, hend, Bool.false_eq_true, if_false, if_true]
        rw [hseek, List.contains_append, Bool.or_assoc]

theorem next_over {lexer : Lexer} {start : List Char} {rule : Rule} {lexeme : Lexeme}
    (h : Trivia lexer.cursor.rest start)
    (hf : Rule.first? .default lexer.afterOperand start = some (rule, lexeme))
    (ht : rule.kind.isTrivia = false) :
    ∃ (place : Cursor) (gap : List Char), place.rest = start ∧ lexer.cursor.rest = gap ++ start ∧
      lexer.next .default =
        lexer.emit place rule.kind lexeme rule.precedence (gap.contains '\n') := by
  obtain ⟨place, gap, hp, hg, hs⟩ := @seek_over lexer.afterOperand false _ _ _ _ _ h hf ht
    (Nat.lt_succ_self _)
  refine ⟨place, gap, hp, hg, ?_⟩
  rw [next, hs, Bool.false_or]

theorem next_template {lexer : Lexer} {lexeme : Lexeme} (hne : lexer.cursor.rest ≠ [])
    (hf : Rule.first? .templateText lexer.afterOperand lexer.cursor.rest =
      some (Rule.templateChunk, lexeme)) :
    lexer.next .templateText = lexer.emit lexer.cursor .templateChunk lexeme none false := by
  have hs : seek .templateText lexer.afterOperand (lexer.cursor.rest.length + 1) lexer.cursor
      false = .token lexer.cursor .templateChunk lexeme none false := by
    rw [seek, hf]
    simp [hne, Rule.templateChunk, Rule.form, TokenKind.isTrivia]
  rw [next, hs]

/-- The next token is an arrow if and only if the text says so. -/
theorem next_isArrow_iff (lexer : Lexer) :
    ((lexer.next .default).current.any fun token => token.kind == .arrow) = true ↔
      ArrowBehind lexer.cursor.rest := by
  constructor
  · intro h
    have hlead := seek_leads .default lexer.afterOperand (lexer.cursor.rest.length + 1)
      lexer.cursor false
    unfold next at h
    cases hs : seek .default lexer.afterOperand (lexer.cursor.rest.length + 1) lexer.cursor false with
    | token start kind lexeme precedence newline =>
      rw [hs] at h hlead
      obtain ⟨hskip, hat⟩ := hlead
      have hk : kind = .arrow := by simpa [emit] using h
      obtain ⟨rest, hrest⟩ := hat.of_arrow hk
      have htrivia := hskip.trivia
      rw [hrest] at htrivia
      exact ⟨rest, htrivia⟩
    | stuck place =>
      rw [hs] at h
      cases h
    | finished place =>
      rw [hs] at h
      cases h
  · rintro ⟨rest, h⟩
    obtain ⟨place, newline, -, -, hn⟩ :=
      next_over h (Rule.first?_arrow lexer.afterOperand rest) rfl
    rw [hn]
    rfl

end Lexer

end ScriptTree
