import ScriptTree.Proofs.ModulePrinting
import ScriptTree.Proofs.StatementTokens

/-!
The words in front of the members of classes and objects. Each of them is a modifier if a member goes
on behind it, and otherwise the name of the member itself. Which of the two it is shows in the token
behind it, so the parser goes on to that token, and steps back to read the word again as a name.
-/

namespace ScriptTree

open ParserM

/-- Kinds of tokens that a member can start with. -/
def TokenKind.startsMember : TokenKind → Bool
  | .openParen | .assignmentOperator | .semicolon | .closeBrace | .colon | .comma => false
  | _ => true

theorem canStartMember_some (word : Token) :
    canStartMember (some word) = word.kind.startsMember := by
  obtain ⟨kind, _⟩ := word
  cases kind <;> rfl

/-- A member, and no spread, can start with the first token of a text. -/
def StartsMember (text : List Char) : Prop :=
  ∀ afterOperand, ∃ rule lexeme, Rule.first? .default afterOperand text = some (rule, lexeme) ∧
    rule.kind.isTrivia = false ∧ rule.kind.startsMember = true ∧ rule.kind ≠ .ellipsis

theorem startsMember_of_begins {kind : TokenKind} {precedence : Option Nat} {value rest : List Char}
    (hb : ∀ afterOperand, Begins .default afterOperand kind precedence value rest)
    (ht : kind.isTrivia = false) (hs : kind.startsMember = true) (he : kind ≠ .ellipsis) :
    StartsMember (value ++ rest) := by
  intro afterOperand
  obtain ⟨rule, hf, rfl, -⟩ := hb afterOperand
  exact ⟨rule, _, hf, ht, hs, he⟩

/-- What follows the key of a member: parameters, the end of a field, or the value of one. -/
inductive EndsKey : List Char → Prop
  | params (rest : List Char) : EndsKey ('(' :: rest)
  | field (rest : List Char) : EndsKey (';' :: rest)
  | value (rest : List Char) : EndsKey (' ' :: '=' :: ' ' :: rest)

theorem begins_equals (afterOperand : Bool) (rest : List Char) :
    Begins .default afterOperand .assignmentOperator none ['='] (' ' :: rest) := by
  cases afterOperand
  all_goals exact begins_of_lookup rfl rfl rfl rfl

namespace EndsKey

variable {rest : List Char}

theorem atBoundary (h : EndsKey rest) : atBoundary rest = true := by
  cases h <;> rfl

theorem afterSpace_head (h : EndsKey rest) :
    ∃ c behind, c ∈ ['(', ';', '='] ∧ afterSpace rest = c :: behind := by
  cases h with
  | params rest => exact ⟨'(', rest, by decide, rfl⟩
  | field rest => exact ⟨';', rest, by decide, rfl⟩
  | value rest => exact ⟨'=', ' ' :: rest, by decide, rfl⟩

theorem not_starFollows (h : EndsKey rest) : ¬StarFollows rest := by
  obtain ⟨c, behind, hc, he⟩ := h.afterSpace_head
  intro hs
  rw [StarFollows, he] at hs
  cases hs
  simp at hc

/-- No member starts with what follows a key. -/
theorem canStartMember_eq_false (h : EndsKey rest) {lexer : Lexer} {afterOperand : Bool}
    (hf : lexer.Facing .default afterOperand rest) : canStartMember lexer.current = false := by
  have hshows : ∃ kind value behind, lexer.Shows kind none value kind.closesOperand behind ∧
      kind.startsMember = false := by
    cases h with
    | params rest => exact ⟨_, _, rest, hf.shows_mark .openParen (by decide), rfl⟩
    | field rest => exact ⟨_, _, rest, hf.shows_mark .semicolon (by decide), rfl⟩
    | value rest =>
      have hf' := hf.skip (Or.inl rfl) (by rintro _ ⟨⟩; rfl)
      exact ⟨_, _, _, hf'.shows (begins_equals _ rest) rfl rfl, rfl⟩
  obtain ⟨kind, value, behind, hs, hk⟩ := hshows
  obtain ⟨word, hw, rfl, -⟩ := hs.token
  rw [hw, canStartMember_some, hk]

end EndsKey

/-- Whether a token may be a modifier in front of a member. -/
def Token.isModifier (word : Token) : Bool :=
  word.kind == .staticKeyword || word.kind == .getKeyword || word.kind == .setKeyword ||
    word.isText .identifierName "async"

/-- What is read as a name, or as a word that may stand before a member, goes no further than the
name that stands there. -/
theorem raw_of_nameKind {name rest : List Char} {afterOperand : Bool} {rule : Rule} {lexeme : Lexeme}
    (hf : Rule.first? .default afterOperand (name ++ rest) = some (rule, lexeme)) (hn : IsName name)
    (hb : atBoundary rest = true)
    (hk : rule.kind ∈ [.staticKeyword, .getKeyword, .setKeyword, .identifierName]) :
    lexeme.raw = name := by
  have hpatterns : ∀ rule ∈ Rule.table,
      rule.kind ∈ [.staticKeyword, .getKeyword, .setKeyword, .identifierName] →
      rule.pattern = .form .identifier ∨
        ∃ word ∈ ["static", "get", "set"], rule.pattern = .words [word] := by
    decide
  obtain ⟨ha, hr⟩ := Rule.applies_of_first hf
  have hin : rule ∈ Rule.table := by
    rcases hr with ⟨ht, -⟩ | ⟨-, hin, -⟩
    · cases ht
    · exact hin
  rcases hpatterns rule hin hk with hp | ⟨word, hword, hp⟩
  · rw [hp] at ha
    change (Scan.name? (name ++ rest)).map Lexeme.whole = some lexeme at ha
    rw [name?_append hn hb] at ha
    cases ha
    simp [Lexeme.raw, Lexeme.whole]
  · have hpart : word.toList.all isNamePart = true := by
      have hall : ∀ word ∈ ["static", "get", "set"], word.toList.all isNamePart = true := by
        decide
      exact hall word hword
    rw [hp] at ha
    -- a longer name would not be taken for the word
    have hname : name = word.toList := by
      by_contra hne
      rw [Pattern.apply, List.find?_cons, afterWord?_name hpart hn.part hb hne] at ha
      cases ha
    obtain ⟨found, hfound, rfl⟩ := Option.map_eq_some_iff.mp ha
    rw [hname, List.mem_singleton.mp (List.mem_of_find?_eq_some hfound)]
    simp [Lexeme.raw, Lexeme.whole]

namespace Lexer

/-- Reading the token again that a stream has gone on to. -/
theorem Facing.reread {lexer : Lexer} {mode : LexerMode} {afterOperand : Bool} {text : List Char}
    {rule : Rule} {lexeme : Lexeme} (h : lexer.Facing mode afterOperand text) (hne : text ≠ [])
    (hf : Rule.first? mode afterOperand text = some (rule, lexeme))
    (ht : rule.kind.isTrivia = false) (mode' : LexerMode) :
    ∃ afterOperand', (lexer.reread mode').Facing mode' afterOperand' text := by
  obtain ⟨earlier, newline, hr, rfl⟩ := h.emits hne hf ht
  exact ⟨earlier.afterOperand, _, false, hr, rfl, next_eq_nextFrom _ _⟩

theorem append_ne_nil_of_isName {name : List Char} (h : IsName name) (rest : List Char) :
    name ++ rest ≠ [] := by
  refine List.append_ne_nil_of_left_ne_nil ?_ rest
  rintro rfl
  cases h

/-- The stream stands on a token that can be read again as a name, with a text behind the name. If
the token might be a modifier, what follows makes a name of it. -/
structure OnName (lexer : Lexer) (name rest : List Char) : Prop where
  isName : IsName name
  boundary : atBoundary rest = true
  word : ∃ word, lexer.current = some word ∧ canBeName word = true ∧
    (word.isModifier = true → lexer.cursor.rest = rest ∧ EndsKey rest)
  again : ∃ afterOperand, (lexer.reread .names).Facing .names afterOperand (name ++ rest)

namespace OnName

variable {lexer : Lexer} {name rest : List Char}

theorem shows (h : lexer.OnName name rest) :
    (lexer.reread .names).Shows .identifierName none name true rest := by
  obtain ⟨afterOperand, hf⟩ := h.again
  exact hf.shows (begins_anyName h.isName h.boundary _) rfl (isUpdateSpelling_name h.isName)

/-- Read again, the token is a name, and can be read again once more. -/
theorem reread (h : lexer.OnName name rest) (he : EndsKey rest) :
    (lexer.reread .names).OnName name rest where
  isName := h.isName
  boundary := h.boundary
  word := by
    obtain ⟨word, hw, hk, -⟩ := h.shows.token
    exact ⟨word, hw, by simp [canBeName, hk], fun _ => ⟨h.shows.rest, he⟩⟩
  again := by
    obtain ⟨afterOperand, hf⟩ := h.again
    obtain ⟨rule, hr, hk, -⟩ := begins_anyName h.isName h.boundary afterOperand
    exact hf.reread (append_ne_nil_of_isName h.isName rest) hr (by rw [hk]; rfl) .names

end OnName

/-- A name that a key ends with. -/
theorem Facing.onName {lexer : Lexer} {name rest : List Char} {afterOperand : Bool}
    (h : lexer.Facing .default afterOperand (name ++ rest)) (hn : IsName name) (he : EndsKey rest) :
    lexer.OnName name rest := by
  obtain ⟨rule, lexeme, hf, ht, hk⟩ := first?_anyName hn he.atBoundary afterOperand
  have hne := append_ne_nil_of_isName hn rest
  refine ⟨hn, he.atBoundary, ?_, h.reread hne hf ht .names⟩
  obtain ⟨earlier, newline, hr, rfl⟩ := h.emits hne hf ht
  refine ⟨_, rfl, by simpa [canBeName, emit, or_assoc] using hk, fun hm => ⟨?_, he⟩⟩
  have hkind : rule.kind ∈ [.staticKeyword, .getKeyword, .setKeyword, .identifierName] := by
    simp only [Token.isModifier, Token.isText, Bool.or_eq_true, Bool.and_eq_true, beq_iff_eq] at hm
    simp only [List.mem_cons, List.not_mem_nil, or_false]
    tauto
  simp [emit, Cursor.advance, hr, raw_of_nameKind hf hn he.atBoundary hkind]

/-- Behind a space, the next token is one on the same line. -/
theorem next_space {lexer : Lexer} {text : List Char} (h : lexer.cursor.rest = ' ' :: text) :
    lexer.next .default =
      { lexer with cursor := lexer.cursor.advance [' '] }.nextFrom .default false := by
  have hplace : lexer.cursor = ⟨lexer.cursor.offset, ' ' :: text⟩ := by rw [← h]
  have hover := @seek_skip .default lexer.afterOperand false ' ' text rfl
    (lexer.cursor.rest.length + 1) (text.length + 1) lexer.cursor.offset (by simp [h]) (by simp)
  rw [← hplace] at hover
  have hadvance : lexer.cursor.advance [' '] = ⟨lexer.cursor.offset + ' '.utf8Size, text⟩ := by
    simp [Cursor.advance, byteLength, h]
  rw [next_eq_nextFrom, nextFrom, hover]
  unfold nextFrom
  rw [behind_advanced, hadvance]
  rfl

end Lexer

namespace ParserM

variable {parser : Parser}

/-- What might be a modifier is stepped back over if it is the name of the member. -/
theorem leads_tryModifier_name {name rest : List Char} (h : parser.lexer.OnName name rest)
    {word : Token} (hw : parser.lexer.current = some word) (hm : word.isModifier = true)
    (sameLine : Bool) :
    Leads (tryModifier sameLine) parser false fun after => after.lexer.OnName name rest := by
  obtain ⟨word', hw', -, himp⟩ := h.word
  obtain rfl : word = word' := Option.some.inj (hw.symm.trans hw')
  obtain ⟨hrest, he⟩ := himp hm
  have hno : canStartMember (parser.lexer.next .default).current = false :=
    he.canStartMember_eq_false ⟨parser.lexer, false, hrest, rfl, Lexer.next_eq_nextFrom _ _⟩
  refine ⟨{ parser with lexer := parser.lexer.reread .names }, ?_, ⟨_, _, rfl⟩, h.reread he⟩
  rw [run_tryModifier, hno, Lexer.next_returnTo_bookmark]
  rfl

/-- A modifier is stepped over if a member starts behind it. -/
theorem leads_tryModifier_member {kind : TokenKind} {precedence : Option Nat} {value text : List Char}
    {afterOperand : Bool} (h : parser.lexer.Shows kind precedence value afterOperand (' ' :: text))
    (ht : StartsMember text) (hne : text ≠ []) (sameLine : Bool) :
    LeadsTo (tryModifier sameLine) parser true afterOperand text := by
  have hnext := Lexer.next_space h.rest
  have hrest : (parser.lexer.cursor.advance [' ']).rest = text := by
    simp [Cursor.advance, h.rest]
  have hfacing : (parser.lexer.next .default).Facing .default afterOperand text :=
    ⟨{ parser.lexer with cursor := parser.lexer.cursor.advance [' '] }, false, hrest,
      h.afterOperand, hnext⟩
  obtain ⟨rule, lexeme, hf, htrivia, hs, -⟩ := ht afterOperand
  obtain ⟨word, hw, hk, hl⟩ : ∃ word, (parser.lexer.next .default).current = some word ∧
      word.kind = rule.kind ∧ word.afterNewline = false := by
    have hsome : ¬(parser.lexer.cursor.advance [' ']).rest.isEmpty = true := by simpa [hrest] using hne
    rw [hnext, Lexer.nextFrom, Lexer.seek, if_neg hsome]
    rw [show Lexer.afterOperand { parser.lexer with cursor := parser.lexer.cursor.advance [' '] } =
      afterOperand from h.afterOperand]
    dsimp only
    rw [hrest, hf]
    dsimp only
    rw [htrivia]
    exact ⟨_, rfl, rfl, rfl⟩
  refine ⟨{ parser with lexer := parser.lexer.next .default }, ?_, ⟨_, _, rfl⟩, hfacing⟩
  rw [run_tryModifier, hw, canStartMember_some, hk, hs, Option.any_some, hl, Bool.and_false,
    Bool.not_false, Bool.and_self, if_pos rfl]

end ParserM

/-- What may stand before the key of a member, in the order in which it is looked for. -/
inductive Modifier where
  /-- The word `static`. -/
  | static
  /-- The word `async`. -/
  | async
  /-- The star of a generator. -/
  | generator
  /-- The word `get`. -/
  | getter
  /-- The word `set`. -/
  | setter
  deriving DecidableEq, Repr

namespace Modifier

/-- The kind of its token. -/
def kind : Modifier → TokenKind
  | static => .staticKeyword
  | async => .identifierName
  | generator => .operator
  | getter => .getKeyword
  | setter => .setKeyword

/-- How tightly its token binds, as an operator. -/
def precedence? : Modifier → Option Nat
  | generator => some 14
  | _ => none

/-- The spelling of its token. -/
def spelling : Modifier → List Char
  | static => ['s', 't', 'a', 't', 'i', 'c']
  | async => Scan.asyncWord
  | generator => ['*']
  | getter => ['g', 'e', 't']
  | setter => ['s', 'e', 't']

/-- What is written between it and the rest of the member. -/
def gap : Modifier → List Char
  | generator => []
  | _ => [' ']

/-- The step over it. -/
def step : Modifier → ParserM Bool
  | static => ParserM.acceptModifier .staticKeyword
  | async => ParserM.acceptAsync
  | generator => ParserM.acceptText .operator "*"
  | getter => ParserM.acceptModifier .getKeyword
  | setter => ParserM.acceptModifier .setKeyword

theorem kind_facts (modifier : Modifier) : modifier.kind.isOrdinary = true ∧
    modifier.kind.startsMember = true ∧ modifier.kind ≠ .ellipsis ∧
      isUpdateSpelling modifier.spelling = false := by
  cases modifier <;> decide

/-- Only before certain texts is a modifier read as such: no second star and no sign of assignment may
follow a star, and `async` may not be taken for the start of a function. -/
structure Reads (modifier : Modifier) (text : List Char) : Prop where
  head : ∀ c ∈ text.head?, isSpace c = false ∧ c ≠ '=' ∧ (modifier = .generator → c ≠ '*')
  nonempty : text ≠ []
  apart : modifier = .async → Scan.plainFunction? text = none

theorem functionHead_async {text : List Char} (hs : ∀ c ∈ text.head?, isSpace c = false)
    (hf : Scan.plainFunction? text = none) :
    Scan.functionHead (Scan.asyncWord ++ ' ' :: text) = none := by
  have hspace : afterSpace (' ' :: text) = text := by
    cases text with
    | nil => rfl
    | cons c text =>
      have hc : isSpace c = false := hs c rfl
      change (c :: text).dropWhile isSpace = c :: text
      exact List.dropWhile_cons_of_neg (by simp [hc])
  have hasync : afterSpelling? Scan.asyncWord (Scan.asyncWord ++ ' ' :: text) = some (' ' :: text) :=
    rfl
  have hgap : (leadingSpace (' ' :: text)).isEmpty = false := rfl
  rw [Scan.functionHead, hasync]
  dsimp only
  rw [hgap, hspace, hf]
  rfl

open Rule in
theorem begins {modifier : Modifier} {text : List Char} (h : modifier.Reads text)
    (afterOperand : Bool) :
    Begins .default afterOperand modifier.kind modifier.precedence? modifier.spelling
      (modifier.gap ++ text) := by
  cases modifier with
  | static => cases afterOperand <;> exact begins_of_lookup rfl rfl rfl rfl
  | getter => cases afterOperand <;> exact begins_of_lookup rfl rfl rfl rfl
  | setter => cases afterOperand <;> exact begins_of_lookup rfl rfl rfl rfl
  | async =>
    have hhead : (Rule.keywordForm .functionKeyword .functionHead).match?
        (Scan.asyncWord ++ ' ' :: text) = none := by
      have hf := functionHead_async (fun c hc => (h.head c hc).1) (h.apart rfl)
      simp [match?, keywordForm, Pattern.apply, LexicalForm.match?, hf]
    have hr : ([keywordForm .functionKeyword .functionHead, keywordForm .importOperator .importWord,
          form .identifierName .identifier].findSome? fun rule =>
        if rule.appliesIn .default afterOperand then rule.match? (Scan.asyncWord ++ ' ' :: text)
        else none) = some (form .identifierName .identifier, .whole Scan.asyncWord) := by
      rw [List.findSome?_cons, hhead, ite_self]
      cases afterOperand <;> rfl
    exact begins_of_lookup rfl hr rfl rfl
  | generator =>
    obtain ⟨c, text, rfl⟩ := List.exists_cons_of_ne_nil h.nonempty
    obtain ⟨-, he, hstar⟩ := h.head c rfl
    have hs := hstar rfl
    have hr : ([compoundAssignment, (punctuators .operator ["**"]).binding 15, product].findSome?
          fun rule => if rule.appliesIn .default afterOperand then rule.match? ('*' :: ([] ++ c :: text))
          else none) = some (product, .whole ['*']) := by
      simp [compoundAssignment, product, punctuators, binding, appliesIn, LexerMode.default,
        LexerMode.looksFor, match?, Pattern.apply, afterSpelling?, Lexeme.whole, Lexeme.raw,
        he.symm, hs.symm]
    exact begins_of_lookup rfl hr rfl rfl

end Modifier

end ScriptTree
