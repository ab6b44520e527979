import ScriptTree.Proofs.ArrowFree
import ScriptTree.Proofs.Exhaustion

/-!
Where a parse stands in its text, and how it moves on.

A parser has always read one token ahead. It stands before a text if that token is the first one of
the text. Reading the tokens of the text one after the other moves it on, and changes nothing else.
-/

namespace ScriptTree

/-- Tokens that are neither passed over nor pieces of a template. -/
def TokenKind.isOrdinary (kind : TokenKind) : Bool := !kind.isTrivia && kind != .templateChunk

/-- Tokens with which an expression may start as a statement. -/
def TokenKind.startsExpression : TokenKind → Bool
  | .identifierName | .thisKeyword | .openParen | .operator => true
  | _ => false

/-- The spellings of increment and decrement. -/
def isUpdateSpelling (value : List Char) : Bool := value == ['+', '+'] || value == ['-', '-']

theorem marks_facts {c : Char} {kind : TokenKind} (h : (c, kind) ∈ marks) :
    kind.isOrdinary = true ∧ isUpdateSpelling [c] = false := by
  have hall : ∀ entry ∈ marks, entry.2.isOrdinary = true ∧ isUpdateSpelling [entry.1] = false := by
    decide
  exact hall _ h

namespace Lexer

/-- The stream behind what has been found ahead. -/
def behind (lexer : Lexer) : Sighting → Lexer
  | .token start kind lexeme precedence newline => lexer.emit start kind lexeme precedence newline
  | .stuck place => { lexer with cursor := place, current := none, exhausted := false }
  | .finished place => { lexer with cursor := place, current := none, exhausted := true }

/-- Goes on to the next token, where a line feed may have been passed over already. -/
def nextFrom (lexer : Lexer) (mode : LexerMode) (newline : Bool) : Lexer :=
  lexer.behind
    (seek mode lexer.afterOperand (lexer.cursor.rest.length + 1) lexer.cursor newline)

theorem next_eq_nextFrom (lexer : Lexer) (mode : LexerMode) :
    lexer.next mode = lexer.nextFrom mode false := by
  unfold next nextFrom
  cases seek mode lexer.afterOperand (lexer.cursor.rest.length + 1) lexer.cursor false <;> rfl

theorem behind_advanced (lexer : Lexer) (cursor : Cursor) (sighting : Sighting) :
    behind { lexer with cursor } sighting = lexer.behind sighting := by
  cases sighting <;> rfl

/-- The stream has just gone on to the first token of a text, from behind an operand or not. -/
def Facing (lexer : Lexer) (mode : LexerMode) (afterOperand : Bool) (text : List Char) : Prop :=
  ∃ (earlier : Lexer) (newline : Bool), earlier.cursor.rest = text ∧
    earlier.afterOperand = afterOperand ∧ lexer = earlier.nextFrom mode newline

/-- The current token has a kind, a strength and a value, and a text lies behind it. -/
structure Shows (lexer : Lexer) (kind : TokenKind) (precedence : Option Nat) (value : List Char)
    (afterOperand : Bool) (rest : List Char) : Prop where
  token : ∃ token, lexer.current = some token ∧ token.kind = kind ∧
    token.value = String.ofList value ∧ token.precedence = precedence
  rest : lexer.cursor.rest = rest
  afterOperand : lexer.afterOperand = afterOperand

theorem Shows.next {lexer : Lexer} {kind : TokenKind} {precedence : Option Nat}
    {value rest : List Char} {afterOperand : Bool}
    (h : lexer.Shows kind precedence value afterOperand rest) (mode : LexerMode) :
    (lexer.next mode).Facing mode afterOperand rest :=
  ⟨lexer, false, h.rest, h.afterOperand, next_eq_nextFrom lexer mode⟩

theorem Facing.emits {lexer : Lexer} {mode : LexerMode} {text : List Char} {afterOperand : Bool}
    {rule : Rule} {lexeme : Lexeme} (h : lexer.Facing mode afterOperand text) (hne : text ≠ [])
    (hf : Rule.first? mode afterOperand text = some (rule, lexeme))
    (ht : rule.kind.isTrivia = false) :
    ∃ (earlier : Lexer) (newline : Bool), earlier.cursor.rest = text ∧
      lexer = earlier.emit earlier.cursor rule.kind lexeme rule.precedence newline := by
  obtain ⟨earlier, newline, hr, ha, rfl⟩ := h
  have he : ¬earlier.cursor.rest.isEmpty = true := by simpa [hr] using hne
  have hs : seek mode earlier.afterOperand (earlier.cursor.rest.length + 1) earlier.cursor newline =
      .token earlier.cursor rule.kind lexeme rule.precedence newline := by
    rw [seek, if_neg he, hr, ha, hf]
    simp only [ht, Bool.false_eq_true, if_false]
  exact ⟨earlier, newline, hr, by rw [nextFrom, hs, behind]⟩

theorem Facing.shows_lexeme {lexer : Lexer} {mode : LexerMode} {text rest : List Char}
    {afterOperand : Bool} {rule : Rule} {lexeme : Lexeme} (h : lexer.Facing mode afterOperand text)
    (hf : Rule.first? mode afterOperand text = some (rule, lexeme)) (ht : text = lexeme.raw ++ rest)
    (hk : rule.kind.isOrdinary = true) (hv : isUpdateSpelling lexeme.value = false) :
    lexer.Shows rule.kind rule.precedence lexeme.value rule.kind.closesOperand rest := by
  simp only [TokenKind.isOrdinary, Bool.and_eq_true, Bool.not_eq_true', bne_iff_ne] at hk
  have hne : text ≠ [] := by
    rw [ht]
    exact List.append_ne_nil_of_left_ne_nil (Rule.raw_ne_nil_of_first hf) rest
  obtain ⟨earlier, newline, hr, rfl⟩ := h.emits hne hf hk.1
  refine ⟨⟨_, rfl, rfl, rfl, rfl⟩, ?_, ?_⟩
  · simp [emit, Cursor.advance, hr, ht]
  · have hc : (rule.kind == .templateChunk) = false := beq_eq_false_iff_ne.mpr hk.2
    have hv' : (lexeme.value == ['+', '+'] || lexeme.value == ['-', '-']) = false := hv
    change tokenClosesOperand _ rule.kind lexeme newline = _
    simp only [tokenClosesOperand, hv', hc, Bool.and_false, Bool.or_false, Bool.false_and]

theorem Facing.shows {lexer : Lexer} {mode : LexerMode} {kind : TokenKind} {precedence : Option Nat}
    {value rest : List Char} {afterOperand : Bool}
    (h : lexer.Facing mode afterOperand (value ++ rest))
    (hb : Begins mode afterOperand kind precedence value rest) (hk : kind.isOrdinary = true)
    (hv : isUpdateSpelling value = false) :
    lexer.Shows kind precedence value kind.closesOperand rest := by
  obtain ⟨rule, hf, rfl, rfl⟩ := hb
  exact h.shows_lexeme hf (by simp [Lexeme.raw, Lexeme.whole]) hk hv

theorem Facing.current_nil {lexer : Lexer} {mode : LexerMode} {afterOperand : Bool}
    (h : lexer.Facing mode afterOperand []) : lexer.current = none ∧ lexer.exhausted = true := by
  obtain ⟨earlier, newline, hr, -, rfl⟩ := h
  rw [nextFrom, hr, seek, hr]
  exact ⟨rfl, rfl⟩

/-- A space or a line feed before a token makes no difference. -/
theorem Facing.skip {lexer : Lexer} {afterOperand : Bool} {c : Char} {text : List Char}
    (h : lexer.Facing .default afterOperand (c :: text)) (hc : c = ' ' ∨ c = '\n')
    (ht : ∀ d ∈ text.head?, isSpace d = false) : lexer.Facing .default afterOperand text := by
  obtain ⟨earlier, newline, hr, ha, rfl⟩ := h
  -- the white space is the one character, since none follows it
  have hs : text.takeWhile isSpace = [] := by
    cases text with
    | nil => rfl
    | cons d text => exact List.takeWhile_cons_of_neg (by simp [ht d rfl])
  have hf : Rule.first? .default earlier.afterOperand earlier.cursor.rest =
      some (anySpace, .whole [c]) := by
    rw [hr, first?_space hc, hs]
  have hne : ¬earlier.cursor.rest.isEmpty = true := by simp [hr]
  have hrest : (earlier.cursor.advance [c]).rest = text := by simp [Cursor.advance, hr]
  refine ⟨{ earlier with cursor := earlier.cursor.advance [c] }, newline || [c].contains '\n', hrest,
    ha, ?_⟩
  -- passing it over costs one round of the search, and one character fewer is left
  have hseek : seek .default earlier.afterOperand (earlier.cursor.rest.length + 1) earlier.cursor
        newline =
      seek .default earlier.afterOperand ((earlier.cursor.advance [c]).rest.length + 1)
        (earlier.cursor.advance [c]) (newline || [c].contains '\n') := by
    rw [seek, if_neg hne, hf, hrest]
    simp only [hr, List.length_cons]
    rfl
  unfold nextFrom
  rw [behind_advanced, hseek]
  rfl

end Lexer

namespace Parser

/-- The parser stands before a text without arrows, with steps enough for it. -/
structure Before (parser : Parser) (afterOperand : Bool) (text : List Char) : Prop where
  facing : parser.lexer.Facing .default afterOperand text
  answers : NoArrows parser.arrowAnswers
  arrowFree : ArrowFree text
  budget : text.length < parser.budget

/-- The parser stands on a token, with a text behind it. -/
structure On (parser : Parser) (kind : TokenKind) (precedence : Option Nat)
    (value rest : List Char) : Prop where
  shows : parser.lexer.Shows kind precedence value kind.closesOperand rest
  answers : NoArrows parser.arrowAnswers
  arrowFree : ArrowFree rest
  budget : rest.length < parser.budget

/-- The parser stands on a token with which an expression may start as a statement. -/
def AtExpression (parser : Parser) : Prop :=
  ∃ kind precedence value rest, parser.On kind precedence value rest ∧ kind.startsExpression = true

/-- A parser that has only moved on in its text. -/
def Moved (parser after : Parser) : Prop :=
  ∃ lexer answers, after = { parser with lexer, arrowAnswers := answers }

namespace Moved

variable {parser between after : Parser}

theorem refl (parser : Parser) : parser.Moved parser := ⟨_, _, rfl⟩

theorem trans (h : parser.Moved between) (h' : between.Moved after) : parser.Moved after := by
  obtain ⟨_, _, rfl⟩ := h
  obtain ⟨lexer, answers, rfl⟩ := h'
  exact ⟨lexer, answers, rfl⟩

theorem context (h : parser.Moved after) : after.context = parser.context := by
  obtain ⟨_, _, rfl⟩ := h
  rfl

theorem options (h : parser.Moved after) : after.options = parser.options := by
  obtain ⟨_, _, rfl⟩ := h
  rfl

theorem budget (h : parser.Moved after) : after.budget = parser.budget := by
  obtain ⟨_, _, rfl⟩ := h
  rfl

theorem operands (h : parser.Moved after) : after.operands = parser.operands := by
  obtain ⟨_, _, rfl⟩ := h
  rfl

end Moved

theorem Before.skip {parser : Parser} {afterOperand : Bool} {c : Char} {text : List Char}
    (h : parser.Before afterOperand (c :: text)) (hc : c = ' ' ∨ c = '\n')
    (ht : ∀ d ∈ text.head?, isSpace d = false) : parser.Before afterOperand text where
  facing := h.facing.skip hc ht
  answers := h.answers
  arrowFree := h.arrowFree.of_suffix (List.suffix_cons c text)
  budget := Nat.lt_trans (Nat.lt_succ_self _) h.budget

theorem Before.enter {parser : Parser} {afterOperand : Bool} {text : List Char}
    (h : parser.Before afterOperand text) (frame : Frame) :
    Before { parser with context := frame :: parser.context } afterOperand text :=
  ⟨h.facing, h.answers, h.arrowFree, h.budget⟩

theorem On.enter {parser : Parser} {kind : TokenKind} {precedence : Option Nat}
    {value rest : List Char} (h : parser.On kind precedence value rest) (frame : Frame) :
    On { parser with context := frame :: parser.context } kind precedence value rest :=
  ⟨h.shows, h.answers, h.arrowFree, h.budget⟩

theorem AtExpression.enter {parser : Parser} (h : parser.AtExpression) (frame : Frame) :
    AtExpression { parser with context := frame :: parser.context } := by
  obtain ⟨kind, precedence, value, rest, hon, hk⟩ := h
  exact ⟨kind, precedence, value, rest, hon.enter frame, hk⟩

theorem Before.on {parser : Parser} {afterOperand : Bool} {kind : TokenKind}
    {precedence : Option Nat} {value rest : List Char}
    (h : parser.Before afterOperand (value ++ rest))
    (hb : Begins .default afterOperand kind precedence value rest)
    (hk : kind.isOrdinary = true) (hv : isUpdateSpelling value = false) :
    parser.On kind precedence value rest where
  shows := h.facing.shows hb hk hv
  answers := h.answers
  arrowFree := h.arrowFree.of_append
  budget := by
    have hl := h.budget
    rw [List.length_append] at hl
    omega

theorem Before.on_lexeme {parser : Parser} {afterOperand : Bool} {text rest : List Char}
    {rule : Rule} {lexeme : Lexeme} (h : parser.Before afterOperand text)
    (hf : Rule.first? .default afterOperand text = some (rule, lexeme))
    (ht : text = lexeme.raw ++ rest) (hk : rule.kind.isOrdinary = true)
    (hv : isUpdateSpelling lexeme.value = false) :
    parser.On rule.kind rule.precedence lexeme.value rest where
  shows := h.facing.shows_lexeme hf ht hk hv
  answers := h.answers
  arrowFree := by
    have ha := h.arrowFree
    rw [ht] at ha
    exact ha.of_append
  budget := by
    have hl := h.budget
    rw [ht, List.length_append] at hl
    omega

theorem Before.on_mark {parser : Parser} {afterOperand : Bool} {kind : TokenKind} {c : Char}
    {rest : List Char} (h : parser.Before afterOperand (c :: rest)) (hm : (c, kind) ∈ marks) :
    parser.On kind none [c] rest := by
  obtain ⟨hk, hv⟩ := marks_facts hm
  exact h.on (begins_mark hm afterOperand rest) hk hv

end Parser

namespace ParserM

variable {α β : Type}

/-- A step that gives a result and moves the parser on to where something holds. -/
def Leads (m : ParserM α) (parser : Parser) (a : α) (holds : Parser → Prop) : Prop :=
  ∃ after, m parser = .ok a after ∧ parser.Moved after ∧ holds after

theorem Leads.bind {m : ParserM α} {f : α → ParserM β} {parser : Parser} {a : α} {b : β}
    {holds holds' : Parser → Prop} (h : Leads m parser a holds)
    (hf : ∀ between, parser.Moved between → holds between → Leads (f a) between b holds') :
    Leads (m >>= f) parser b holds' := by
  obtain ⟨between, hm, hmoved, hholds⟩ := h
  obtain ⟨after, hfa, hmoved', hholds'⟩ := hf between hmoved hholds
  refine ⟨after, ?_, hmoved.trans hmoved', hholds'⟩
  rw [run_bind, hm]
  exact hfa

theorem Leads.of_eq {m m' : ParserM α} {parser : Parser} {a : α} {holds : Parser → Prop}
    (h : Leads m' parser a holds) (he : m parser = m' parser) : Leads m parser a holds := by
  obtain ⟨after, hm, hrest⟩ := h
  exact ⟨after, he.trans hm, hrest⟩

/-- What holds inside a construct is taken along out of it, if it is no matter of the context. -/
theorem Leads.within {m : ParserM α} {frame : Frame} {parser : Parser} {a : α}
    {holds : Parser → Prop}
    (h : Leads m { parser with context := frame :: parser.context } a holds)
    (hc : ∀ (after : Parser) (context : Context), holds after → holds { after with context })
    (hd : parser.context.length < parser.options.maxDepth) :
    Leads (within frame m) parser a holds := by
  obtain ⟨after, hm, ⟨lexer, answers, rfl⟩, hh⟩ := h
  refine ⟨{ parser with lexer, arrowAnswers := answers }, ?_, ⟨_, _, rfl⟩, hc _ parser.context hh⟩
  rw [run_within hd, hm]
  rfl

/-- A step that gives a result and moves the parser on to a text. -/
def Arrives (m : ParserM α) (parser : Parser) (a : α) (afterOperand : Bool) (text : List Char) :
    Prop :=
  ∃ after, m parser = .ok a after ∧ parser.Moved after ∧ after.Before afterOperand text

theorem Arrives.bind {m : ParserM α} {f : α → ParserM β} {parser : Parser} {a : α} {b : β}
    {afterOperand afterOperand' : Bool} {text text' : List Char}
    (h : Arrives m parser a afterOperand text)
    (hf : ∀ between, parser.Moved between → between.Before afterOperand text →
      Arrives (f a) between b afterOperand' text') :
    Arrives (m >>= f) parser b afterOperand' text' :=
  Leads.bind h hf

theorem Arrives.pure {parser : Parser} {afterOperand : Bool} {text : List Char} (a : α)
    (h : parser.Before afterOperand text) :
    Arrives (pure a) parser a afterOperand text :=
  ⟨parser, rfl, .refl parser, h⟩

theorem Arrives.of_eq {m m' : ParserM α} {parser : Parser} {a : α} {afterOperand : Bool}
    {text : List Char} (h : Arrives m' parser a afterOperand text) (he : m parser = m' parser) :
    Arrives m parser a afterOperand text :=
  Leads.of_eq h he

theorem Arrives.within {m : ParserM α} {frame : Frame} {parser : Parser} {a : α}
    {afterOperand : Bool} {text : List Char}
    (h : Arrives m { parser with context := frame :: parser.context } a afterOperand text)
    (hd : parser.context.length < parser.options.maxDepth) :
    Arrives (within frame m) parser a afterOperand text :=
  Leads.within h (fun _ _ hb => ⟨hb.facing, hb.answers, hb.arrowFree, hb.budget⟩) hd

section Shows

variable {parser : Parser} {kind : TokenKind} {precedence : Option Nat} {value rest : List Char}
  {afterOperand : Bool}

theorem run_token_of_shows (h : parser.lexer.Shows kind precedence value afterOperand rest) :
    ∃ word, token parser = .ok word parser ∧ parser.lexer.current = some word ∧ word.kind = kind ∧
      word.value = String.ofList value ∧ word.precedence = precedence := by
  obtain ⟨word, hc, hw⟩ := h.token
  exact ⟨word, run_token hc, hc, hw⟩

theorem run_isAt_of_shows (h : parser.lexer.Shows kind precedence value afterOperand rest)
    (other : TokenKind) : isAt other parser = .ok (kind == other) parser := by
  obtain ⟨word, hc, rfl, -, -⟩ := h.token
  simp only [isAt, run_bind, run_current, hc, Option.any_some, run_pure]

end Shows

section On

variable {parser : Parser} {kind : TokenKind} {precedence : Option Nat} {value rest : List Char}

theorem run_token_of_on (h : parser.On kind precedence value rest) :
    ∃ word, token parser = .ok word parser ∧ parser.lexer.current = some word ∧ word.kind = kind ∧
      word.value = String.ofList value ∧ word.precedence = precedence :=
  run_token_of_shows h.shows

theorem run_isAt_of_on (h : parser.On kind precedence value rest) (other : TokenKind) :
    isAt other parser = .ok (kind == other) parser :=
  run_isAt_of_shows h.shows other

theorem arrives_nextToken (h : parser.On kind precedence value rest) :
    Arrives nextToken parser () kind.closesOperand rest :=
  ⟨_, rfl, ⟨_, _, rfl⟩, ⟨h.shows.next .default, h.answers, h.arrowFree, h.budget⟩⟩

theorem arrives_require (h : parser.On kind precedence value rest) :
    Arrives (require kind) parser () kind.closesOperand rest := by
  refine (arrives_nextToken h).of_eq ?_
  simp only [require, run_bind, run_isAt_of_on h, beq_self_eq_true, if_true]

theorem arrives_accept (h : parser.On kind precedence value rest) :
    Arrives (accept kind) parser true kind.closesOperand rest := by
  have hn : Arrives (nextToken >>= fun _ => pure true) parser true kind.closesOperand rest :=
    (arrives_nextToken h).bind fun _ _ hb => .pure true hb
  refine hn.of_eq ?_
  simp only [accept, run_bind, run_isAt_of_on h, beq_self_eq_true, if_true]

theorem run_accept_of_ne (h : parser.On kind precedence value rest) {other : TokenKind}
    (ho : kind ≠ other) : accept other parser = .ok false parser := by
  have hb : (kind == other) = false := beq_eq_false_iff_ne.mpr ho
  simp only [accept, run_bind, run_isAt_of_on h, hb, Bool.false_eq_true, if_false, run_pure]

end On

end ParserM

end ScriptTree
