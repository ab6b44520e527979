import ScriptTree.Proofs.StatementText
import ScriptTree.Proofs.WholeText

/-!
Statements whose expressions are names, as they are read: one lemma for each form of statement, on the
text that is printed for it.
-/

namespace ScriptTree

/-- Tokens with which a statement may start. The others end statements around it. -/
def TokenKind.opensStatement : TokenKind → Bool
  | .elseKeyword | .caseKeyword | .defaultKeyword | .closeBrace => false
  | _ => true

/-- What the current token is like once a text has been started on. -/
def Heads (holds : Option Token → Prop) (text : List Char) : Prop :=
  ∀ (lexer : Lexer) (afterOperand : Bool), lexer.Facing .default afterOperand text →
    holds lexer.current

/-- A token with which a statement may start. -/
def OpensStatement (token : Option Token) : Prop :=
  ∃ word, token = some word ∧ word.kind.opensStatement = true

/-- No `else`. -/
def NoElse (token : Option Token) : Prop := ∀ word, token = some word → word.kind ≠ .elseKeyword

theorem OpensStatement.noElse {token : Option Token} (h : OpensStatement token) : NoElse token := by
  obtain ⟨word, rfl, hk⟩ := h
  rintro _ ⟨⟩ he
  rw [he] at hk
  cases hk

section Heads

variable {holds holds' : Option Token → Prop} {text rest : List Char}

theorem Heads.mono (h : Heads holds text) (himp : ∀ token, holds token → holds' token) :
    Heads holds' text := fun lexer afterOperand hf => himp _ (h lexer afterOperand hf)

theorem Heads.pass {gap : List Char} (h : Heads holds text) (hg : ∀ c ∈ gap, isSpace c = true) :
    Heads holds (gap ++ text) := by
  intro lexer afterOperand hf
  refine h lexer afterOperand (hf.pass fun c hc => ?_)
  simp [LexerMode.skips, LexerMode.default, hg c hc]

theorem Heads.space (h : Heads holds text) : Heads holds (' ' :: text) := by
  have h' : Heads holds ([' '] ++ text) := h.pass (List.forall_mem_singleton.mpr rfl)
  exact h'

theorem heads_of_first? (h : ∀ afterOperand, ∃ rule lexeme,
      Rule.first? .default afterOperand text = some (rule, lexeme) ∧ rule.kind.isTrivia = false ∧
        ∀ word : Token, word.kind = rule.kind → holds (some word)) (hne : text ≠ []) :
    Heads holds text := by
  intro lexer afterOperand hf
  obtain ⟨rule, lexeme, hr, ht, hh⟩ := h afterOperand
  obtain ⟨earlier, newline, -, rfl⟩ := hf.emits hne hr ht
  exact hh _ rfl

theorem heads_of_begins {kind : TokenKind} {precedence : Option Nat} {value : List Char}
    (hb : ∀ afterOperand, Begins .default afterOperand kind precedence value rest)
    (ht : kind.isTrivia = false) (hh : ∀ word : Token, word.kind = kind → holds (some word)) :
    Heads holds (value ++ rest) := by
  refine heads_of_first? (fun afterOperand => ?_) ?_
  · obtain ⟨rule, hr, rfl, -⟩ := hb afterOperand
    exact ⟨rule, _, hr, ht, hh⟩
  · obtain ⟨rule, hr, -, -⟩ := hb true
    have hv : value ≠ [] := by
      simpa [Lexeme.raw, Lexeme.whole] using Rule.raw_ne_nil_of_first hr
    exact List.append_ne_nil_of_left_ne_nil hv rest

theorem opens_of_begins {kind : TokenKind} {precedence : Option Nat} {value : List Char}
    (hb : ∀ afterOperand, Begins .default afterOperand kind precedence value rest)
    (ht : kind.isTrivia = false) (ho : kind.opensStatement = true) :
    Heads OpensStatement (value ++ rest) :=
  heads_of_begins hb ht fun word hw => ⟨word, rfl, hw ▸ ho⟩

end Heads

open ParserM

/-- A text is read as a statement, whatever follows it. Only behind a choice without a second branch
there may be no `else`. -/
structure ReadsStatement (text : List Char) (node : Node) : Prop where
  opens : ∀ rest, Heads OpensStatement (text ++ rest)
  reads : ∀ (room : Nat) (parser : Parser) (afterOperand : Bool) (rest : List Char),
    parser.Before afterOperand (text ++ rest) → (node.endsOpen = true → Heads NoElse rest) →
    text.length ≤ room → parser.context.length + text.length ≤ parser.options.maxDepth →
    ∃ afterOperand', Arrives (goal arrowAhead room .statement) parser node afterOperand' rest

theorem ReadsStatement.within {text rest : List Char} {node : Node} {parser : Parser}
    {afterOperand : Bool} (h : ReadsStatement text node) (room : Nat)
    (hb : parser.Before afterOperand (text ++ rest)) (he : node.endsOpen = true → Heads NoElse rest)
    (kind : NodeKind) (slot : Slot) (hr : text.length ≤ room)
    (hd : parser.context.length + text.length < parser.options.maxDepth) :
    ∃ afterOperand', Arrives (statementAt (goal arrowAhead room) kind slot) parser node afterOperand'
      rest := by
  obtain ⟨afterOperand', hx⟩ := h.reads room
    { parser with context := .filling kind slot :: parser.context } afterOperand rest (hb.enter _) he
    hr (by simp only [List.length_cons]; omega)
  exact ⟨afterOperand', hx.within (by omega)⟩

section Steps

variable {parser : Parser} {afterOperand : Bool} {rest : List Char}

theorem run_accept_else (h : Heads NoElse rest) (hb : parser.Before afterOperand rest) :
    accept .elseKeyword parser = .ok false parser := by
  have hno := h _ _ hb.facing
  rw [run_accept, if_neg]
  intro ha
  cases hc : parser.lexer.current with
  | none => simp [hc] at ha
  | some word => exact hno word hc (by simpa [hc] using ha)

theorem arrives_accept_semicolon (hb : parser.Before afterOperand (';' :: rest)) :
    Arrives (accept .semicolon) parser true false rest := by
  have hon : parser.On .semicolon none [';'] rest := hb.on_mark (by decide)
  exact arrives_accept hon

theorem arrives_require_semicolon (hb : parser.Before afterOperand (';' :: rest)) :
    Arrives (require .semicolon) parser () false rest := by
  have hon : parser.On .semicolon none [';'] rest := hb.on_mark (by decide)
  exact arrives_require hon

theorem arrives_require_close (hb : parser.Before afterOperand (')' :: rest)) :
    Arrives (require .closeParen) parser () true rest := by
  have hon : parser.On .closeParen none [')'] rest := hb.on_mark (by decide)
  exact arrives_require hon

theorem on_statementWord {word : String} {kind : TokenKind}
    (hb : parser.Before afterOperand (word.toList ++ ' ' :: rest))
    (h : (word, kind) ∈ statementWords) : parser.On kind none word.toList (' ' :: rest) := by
  have hfacts : ∀ entry ∈ statementWords,
      entry.2.isOrdinary = true ∧ isUpdateSpelling entry.1.toList = false := by
    decide
  obtain ⟨hk, hv⟩ := hfacts _ h
  exact hb.on (begins_statementWord h _ _) hk hv

end Steps

namespace ReadsStatement

/-- A text is read as a statement if the rule for its first token reads what stands behind that. -/
theorem of_first {kind : TokenKind} {precedence : Option Nat} {value behind text : List Char}
    {node : Node} (step : (Goal → ParserM Node) → ParserM Node)
    (hf : ∀ afterOperand rest, ∃ rule lexeme,
      Rule.first? .default afterOperand (text ++ rest) = some (rule, lexeme) ∧ rule.kind = kind ∧
        rule.precedence = precedence ∧ lexeme.value = value ∧ text = lexeme.raw ++ behind)
    (hk : kind.isOrdinary = true ∧ kind.opensStatement = true) (hv : isUpdateSpelling value = false)
    (hstep : ∀ (sub : Goal → ParserM Node) (parser : Parser) (word : Token),
      parser.lexer.current = some word → word.kind = kind → statement sub parser = step sub parser)
    (hreads : ∀ (room : Nat) (parser : Parser) (rest : List Char),
      parser.On kind precedence value (behind ++ rest) →
      (node.endsOpen = true → Heads NoElse rest) → behind.length ≤ room →
      parser.context.length + behind.length < parser.options.maxDepth →
      ∃ afterOperand, Arrives (step (goal arrowAhead room)) parser node afterOperand rest) :
    ReadsStatement text node := by
  have htrivia : kind.isTrivia = false := by
    have ho := hk.1
    simp only [TokenKind.isOrdinary, Bool.and_eq_true, Bool.not_eq_true'] at ho
    exact ho.1
  have hlen : behind.length < text.length := by
    obtain ⟨rule, lexeme, hr, -, -, -, ht⟩ := hf false []
    have hraw := List.length_pos_iff.mpr (Rule.raw_ne_nil_of_first hr)
    rw [ht, List.length_append]
    omega
  constructor
  · intro rest
    refine heads_of_first? (fun afterOperand => ?_) ?_
    · obtain ⟨rule, lexeme, hr, hkind, -⟩ := hf afterOperand rest
      refine ⟨rule, lexeme, hr, by rw [hkind, htrivia], fun word hw => ⟨word, rfl, ?_⟩⟩
      rw [hw, hkind, hk.2]
    · exact List.append_ne_nil_of_left_ne_nil (List.ne_nil_of_length_pos (by omega)) rest
  · intro room parser afterOperand rest hb he hr hd
    obtain ⟨room, rfl⟩ : ∃ room', room = room' + 1 := ⟨room - 1, by omega⟩
    obtain ⟨rule, lexeme, hfirst, rfl, rfl, rfl, ht⟩ := hf afterOperand rest
    have hon := hb.on_lexeme hfirst (by rw [ht, List.append_assoc]) hk.1 hv
    obtain ⟨word, hc, hw, -⟩ := hon.shows.token
    obtain ⟨afterOperand', hx⟩ := hreads room parser rest hon he (by omega) (by omega)
    exact ⟨afterOperand', hx.of_eq (hstep _ parser word hc hw)⟩

theorem of_begins {kind : TokenKind} {precedence : Option Nat} {value behind : List Char}
    {node : Node} (step : (Goal → ParserM Node) → ParserM Node)
    (hb : ∀ afterOperand rest, Begins .default afterOperand kind precedence value (behind ++ rest))
    (hk : kind.isOrdinary = true ∧ kind.opensStatement = true) (hv : isUpdateSpelling value = false)
    (hstep : ∀ (sub : Goal → ParserM Node) (parser : Parser) (word : Token),
      parser.lexer.current = some word → word.kind = kind → statement sub parser = step sub parser)
    (hreads : ∀ (room : Nat) (parser : Parser) (rest : List Char),
      parser.On kind precedence value (behind ++ rest) →
      (node.endsOpen = true → Heads NoElse rest) → behind.length ≤ room →
      parser.context.length + behind.length < parser.options.maxDepth →
      ∃ afterOperand, Arrives (step (goal arrowAhead room)) parser node afterOperand rest) :
    ReadsStatement (value ++ behind) node := by
  refine of_first step (fun afterOperand rest => ?_) hk hv hstep hreads
  obtain ⟨rule, hr, hkind, hp⟩ := hb afterOperand rest
  exact ⟨rule, _, by rw [List.append_assoc, hr], hkind, hp, rfl, by simp [Lexeme.raw, Lexeme.whole]⟩

theorem empty : ReadsStatement [';'] .emptyStatement := by
  have hm : (';', TokenKind.semicolon) ∈ marks := by decide
  have h : ReadsStatement ([';'] ++ []) .emptyStatement := by
    refine of_begins (fun _ => emptyStatement) (fun afterOperand => begins_mark hm afterOperand)
      (by decide) rfl (fun sub parser word hc hk => ?_) fun room parser rest hon _ _ _ => ?_
    · simp only [statement, run_bind, run_token hc, hk]
    · exact ⟨_, (arrives_nextToken hon).bind fun _ _ hb => .pure _ hb⟩
  exact h

variable {text : List Char} {node : Node}

theorem ifThen {test : String} (hn : IsSteadyName test.toList) (h : ReadsStatement text node) :
    ReadsStatement ("if".toList ++ ' ' :: '(' :: (test.toList ++ ')' :: ' ' :: text))
      (.ifStatement (.identifier test) node none) := by
  have hword : ("if", TokenKind.ifKeyword) ∈ statementWords := by decide
  refine of_begins ifStatement (fun afterOperand rest => begins_statementWord hword afterOperand _)
    (by decide) rfl (fun sub parser word hc hk => ?_) fun room parser rest hon he hr hd => ?_
  · simp only [statement, run_bind, run_token hc, hk]
  · simp only [List.append_assoc, List.cons_append, List.length_append, List.length_cons] at hon hr hd
    obtain ⟨room, rfl⟩ : ∃ room', room = room' + 1 := ⟨room - 1, by omega⟩
    obtain ⟨p₁, h₁, m₁, b₁⟩ := arrives_enterParens hon
    obtain ⟨p₂, h₂, m₂, b₂⟩ := arrives_condition .ifStatement .test b₁ hn room
      (by rw [m₁.context, m₁.options]; omega)
    obtain ⟨afterOperand, p₃, h₃, m₃, b₃⟩ := h.within (room + 1) b₂.space (fun _ => he rfl)
      .ifStatement .consequent (by omega)
      (by rw [(m₁.trans m₂).context, (m₁.trans m₂).options]; omega)
    have hno := run_accept_else (he rfl) b₃
    refine ⟨afterOperand, p₃, ?_, (m₁.trans m₂).trans m₃, b₃⟩
    simp only [ifStatement, run_bind, h₁, h₂, h₃, hno, Bool.false_eq_true, if_false, run_pure]

/-- The first branch does not end in a choice that would take the `else` for itself. -/
theorem ifElse {test : String} {text' : List Char} {alternate : Node} (hn : IsSteadyName test.toList)
    (h : ReadsStatement text node) (ho : node.endsOpen = false) (h' : ReadsStatement text' alternate) :
    ReadsStatement ("if".toList ++ ' ' :: '(' :: (test.toList ++ ')' :: ' ' :: (text ++
      ' ' :: ("else".toList ++ ' ' :: text'))))
      (.ifStatement (.identifier test) node (some alternate)) := by
  have hword : ("if", TokenKind.ifKeyword) ∈ statementWords := by decide
  refine of_begins ifStatement (fun afterOperand rest => begins_statementWord hword afterOperand _)
    (by decide) rfl (fun sub parser word hc hk => ?_) fun room parser rest hon he hr hd => ?_
  · simp only [statement, run_bind, run_token hc, hk]
  · simp only [List.append_assoc, List.cons_append, List.length_append, List.length_cons] at hon hr hd
    obtain ⟨room, rfl⟩ : ∃ room', room = room' + 1 := ⟨room - 1, by omega⟩
    obtain ⟨p₁, h₁, m₁, b₁⟩ := arrives_enterParens hon
    obtain ⟨p₂, h₂, m₂, b₂⟩ := arrives_condition .ifStatement .test b₁ hn room
      (by rw [m₁.context, m₁.options]; omega)
    have m₁₂ := m₁.trans m₂
    have hclosed : ¬node.endsOpen = true := by rw [ho]; exact Bool.false_ne_true
    obtain ⟨_, p₃, h₃, m₃, b₃⟩ := h.within (room + 1) b₂.space (absurd · hclosed) .ifStatement
      .consequent (by omega) (by rw [m₁₂.context, m₁₂.options]; omega)
    have m₁₃ := m₁₂.trans m₃
    have helse : p₃.On .elseKeyword none "else".toList _ := on_statementWord b₃.space (by decide)
    obtain ⟨p₄, h₄, m₄, b₄⟩ := arrives_accept helse
    have m₁₄ := m₁₃.trans m₄
    obtain ⟨afterOperand, p₅, h₅, m₅, b₅⟩ := h'.within (room + 1) b₄.space he .ifStatement
      .alternate (by omega) (by rw [m₁₄.context, m₁₄.options]; omega)
    refine ⟨afterOperand, p₅, ?_, m₁₄.trans m₅, b₅⟩
    simp only [ifStatement, run_bind, h₁, h₂, h₃, h₄, if_true, h₅, run_pure]

theorem whileLoop {test : String} (hn : IsSteadyName test.toList) (h : ReadsStatement text node) :
    ReadsStatement ("while".toList ++ ' ' :: '(' :: (test.toList ++ ')' :: ' ' :: text))
      (.whileStatement (.identifier test) node) := by
  have hword : ("while", TokenKind.whileKeyword) ∈ statementWords := by decide
  refine of_begins whileStatement
    (fun afterOperand rest => begins_statementWord hword afterOperand _) (by decide) rfl
    (fun sub parser word hc hk => ?_) fun room parser rest hon he hr hd => ?_
  · simp only [statement, run_bind, run_token hc, hk]
  · simp only [List.append_assoc, List.cons_append, List.length_append, List.length_cons] at hon hr hd
    obtain ⟨room, rfl⟩ : ∃ room', room = room' + 1 := ⟨room - 1, by omega⟩
    obtain ⟨p₁, h₁, m₁, b₁⟩ := arrives_enterParens hon
    obtain ⟨p₂, h₂, m₂, b₂⟩ := arrives_condition .whileStatement .test b₁ hn room
      (by rw [m₁.context, m₁.options]; omega)
    have m₁₂ := m₁.trans m₂
    obtain ⟨afterOperand, p₃, h₃, m₃, b₃⟩ := h.within (room + 1) b₂.space he .whileStatement .body
      (by omega) (by rw [m₁₂.context, m₁₂.options]; omega)
    refine ⟨afterOperand, p₃, ?_, m₁₂.trans m₃, b₃⟩
    simp only [whileStatement, run_bind, h₁, h₂, h₃, run_pure]

/-- The semicolon behind the condition belongs to the loop. -/
theorem doWhile {test : String} (hn : IsSteadyName test.toList) (h : ReadsStatement text node) :
    ReadsStatement ("do".toList ++ ' ' :: (text ++ ' ' :: ("while".toList ++ ' ' :: '(' ::
      (test.toList ++ [')', ';'])))) (.doWhile node (.identifier test)) := by
  have hword : ("do", TokenKind.doKeyword) ∈ statementWords := by decide
  refine of_begins ParserM.doWhile
    (fun afterOperand rest => begins_statementWord hword afterOperand _) (by decide) rfl
    (fun sub parser word hc hk => ?_) fun room parser rest hon _ hr hd => ?_
  · simp only [statement, run_bind, run_token hc, hk]
  · simp only [List.append_assoc, List.cons_append, List.nil_append, List.length_append,
      List.length_cons] at hon hr hd
    obtain ⟨room, rfl⟩ : ∃ room', room = room' + 1 := ⟨room - 1, by omega⟩
    obtain ⟨p₁, h₁, m₁, b₁⟩ := arrives_nextToken hon
    have hnoElse : Heads NoElse (' ' :: ("while".toList ++ ' ' :: '(' ::
        (test.toList ++ ')' :: ';' :: rest))) := by
      have hw : ("while", TokenKind.whileKeyword) ∈ statementWords := by decide
      have hopens : Heads OpensStatement ("while".toList ++ ' ' :: '(' ::
          (test.toList ++ ')' :: ';' :: rest)) :=
        opens_of_begins (fun afterOperand => begins_statementWord hw afterOperand _) rfl rfl
      exact (hopens.mono fun _ => OpensStatement.noElse).space
    obtain ⟨_, p₂, h₂, m₂, b₂⟩ := h.within (room + 1) b₁.space (fun _ => hnoElse)
      .doWhileStatement .body (by omega) (by rw [m₁.context, m₁.options]; omega)
    have m₁₂ := m₁.trans m₂
    have hwhile : p₂.On .whileKeyword none "while".toList _ := on_statementWord b₂.space (by decide)
    obtain ⟨p₃, h₃, m₃, b₃⟩ := arrives_enterParens hwhile
    have m₁₃ := m₁₂.trans m₃
    obtain ⟨p₄, h₄, m₄, b₄⟩ := arrives_condition .doWhileStatement .test b₃ hn room
      (by rw [m₁₃.context, m₁₃.options]; omega)
    obtain ⟨p₅, h₅, m₅, b₅⟩ := arrives_accept_semicolon b₄
    refine ⟨false, p₅, ?_, (m₁₃.trans m₄).trans m₅, b₅⟩
    simp only [ParserM.doWhile, run_bind, h₁, h₂, run_isAt_of_on hwhile, beq_self_eq_true, if_true,
      h₃, h₄, h₅, run_pure]

theorem expression {name : String} (hn : IsSteadyName name.toList) :
    ReadsStatement (name.toList ++ [';']) (.expressionStatement (.identifier name)) := by
  refine of_begins ParserM.expressionStatement
    (fun afterOperand rest => begins_steadyName hn (.mark (by decide)) afterOperand) (by decide)
    (isUpdateSpelling_name hn.plain.isName) (fun sub parser word hc hk => ?_)
    fun room parser rest hon _ hr hd => ?_
  · simp only [statement, run_bind, run_token hc, hk]
  · obtain ⟨room, rfl⟩ := Nat.exists_eq_succ_of_ne_zero (Nat.ne_zero_of_lt hr)
    have hx : Arrives (operandAt (goal arrowAhead (room + 1)) .expressionStatement .expression)
        parser (.identifier name) true (';' :: rest) :=
      arrives_nameOperand hon rfl (halts_semicolon rest) room (by omega)
    exact arrives_expressionStatement rfl hx (Or.inl rfl)

theorem declaration {kind : VariableKind} {first : NameDeclarator} {others : List NameDeclarator}
    (hp : ∀ declarator ∈ first :: others, declarator.IsPlain) :
    ReadsStatement (kind.keyword.toList ++ ' ' :: (declaratorsText (first :: others) ++ [';']))
      (.variableDeclaration kind ((first :: others).map NameDeclarator.node)) := by
  have hword : (kind.keyword, TokenKind.declarationKeyword) ∈ statementWords := by
    cases kind <;> decide
  refine of_begins declarationStatement
    (fun afterOperand rest => begins_statementWord hword afterOperand _) (by decide)
    (by cases kind <;> rfl) (fun sub parser word hc hk => ?_) fun room parser rest hon _ hr hd => ?_
  · simp only [statement, run_bind, run_token hc, hk]
  · simp only [List.append_assoc, List.cons_append, List.nil_append, List.length_append,
      List.length_cons] at hon hr hd
    obtain ⟨room, rfl⟩ : ∃ room', room = room' + 1 := ⟨room - 1, by omega⟩
    refine ⟨false, (arrives_variableDeclaration hp hon (.semicolon rest) room (by omega)).bind
      fun p₁ _ b₁ => ?_⟩
    exact (arrives_accept_semicolon b₁).bind fun _ _ b₂ => .pure _ b₂

/-- The label is read as an operand, which the colon and the statement behind it extend. -/
theorem labeled {label : String} (hn : IsSteadyName label.toList) (h : ReadsStatement text node) :
    ReadsStatement (label.toList ++ ':' :: ' ' :: text) (.labeled (.identifier label) node) := by
  refine of_begins ParserM.expressionStatement
    (fun afterOperand rest => begins_steadyName hn (.mark (by decide)) afterOperand) (by decide)
    (isUpdateSpelling_name hn.plain.isName) (fun sub parser word hc hk => ?_)
    fun room parser rest hon he hr hd => ?_
  · simp only [statement, run_bind, run_token hc, hk]
  · simp only [List.cons_append, List.length_cons] at hon hr hd
    obtain ⟨room, rfl⟩ : ∃ room', room = room' + 1 := ⟨room - 1, by omega⟩
    have hfresh : Arrives (fresh arrowAhead (goal arrowAhead room)) _ _ true _ :=
      arrives_fresh_identifier (hon.enter (.filling .expressionStatement .expression))
    rw [String.ofList_toList] at hfresh
    obtain ⟨p₁, h₁, m₁, b₁⟩ := operand_of_fresh rfl hfresh
    have hc₁ : p₁.context = .filling .expressionStatement .expression :: parser.context := m₁.context
    have ho₁ : p₁.options = parser.options := m₁.options
    have hcolon : p₁.On .colon none [':'] _ := b₁.on_mark (by decide)
    obtain ⟨word, hw, hk, -⟩ := hcolon.shows.token
    have hadmits : p₁.context.admits (.identifier label) word = true := by
      rw [hc₁]
      simp [Context.admits, hk, Node.isIdentifier, Node.name?]
    have hbody : ∃ afterOperand, Arrives (extension (goal arrowAhead room) .colon (.identifier label))
        { p₁ with context := .extending .identifier :: p₁.context }
        (.labeled (.identifier label) node) afterOperand rest := by
      obtain ⟨p₂, h₂, m₂, b₂⟩ := arrives_nextToken (hcolon.enter (.extending .identifier))
      obtain ⟨afterOperand, p₃, h₃, m₃, b₃⟩ := h.within room b₂.space he .labeledStatement .body
        (by omega) (by
          rw [m₂.context, m₂.options]
          simp only [hc₁, ho₁, List.length_cons]
          omega)
      refine ⟨afterOperand, p₃, ?_, m₂.trans m₃, b₃⟩
      simp only [extension, ParserM.labeled, run_bind, h₂, h₃, run_pure]
    obtain ⟨afterOperand, hx⟩ := hbody
    have hl := hon.budget
    simp only [List.length_cons] at hl
    obtain ⟨rounds, hrounds⟩ : ∃ rounds, parser.budget = rounds + 1 := ⟨parser.budget - 1, by omega⟩
    obtain ⟨p₄, h₄, m₄, b₄⟩ := extend_step rounds hcolon hw rfl hadmits
      (by simp only [hc₁, ho₁, List.length_cons]; omega) hx
    -- what comes out is a statement, so it is not extended
    have hend : extend arrowAhead (goal arrowAhead room) (.labeled (.identifier label) node) rounds
        p₄ = .ok _ p₄ := extend_complete rfl (by omega)
    have hoperand : Arrives (operandAt (goal arrowAhead (room + 1)) .expressionStatement .expression)
        parser (.labeled (.identifier label) node) afterOperand rest := by
      refine Arrives.within ⟨p₄, ?_, m₁.trans m₄, b₄⟩ (by omega)
      refine h₁.trans (Eq.trans ?_ (h₄.trans hend))
      rw [hrounds]
    exact ⟨afterOperand, hoperand.bind fun _ _ b => .pure _ b⟩

theorem returnNothing : ReadsStatement ("return".toList ++ [';']) (.returnStatement none) := by
  refine of_begins ParserM.returnStatement (fun afterOperand => begins_return afterOperand) (by decide)
    rfl (fun sub parser word hc hk => ?_) fun room parser rest hon _ _ _ => ?_
  · simp only [statement, run_bind, run_token hc, hk]
  · have hgap : parser.On .returnKeyword none "return".toList ([] ++ ([';'] ++ rest)) := hon
    have hm : (';', TokenKind.semicolon) ∈ marks := by decide
    obtain ⟨word, p₁, h₁, hk, m₁, hon₁⟩ := run_nextTokenIn hgap
      ((begins_mark hm _ rest).newlines (by rintro _ ⟨⟩; rfl)) (fun _ hc => absurd hc List.not_mem_nil) rfl rfl
    obtain ⟨p₂, h₂, m₂, b₂⟩ := arrives_nextToken hon₁
    refine ⟨_, p₂, ?_, m₁.trans m₂, b₂⟩
    simp only [ParserM.returnStatement, run_bind, h₁, hk, if_true, h₂, run_pure]

theorem returnName {name : String} (hn : IsSteadyName name.toList) :
    ReadsStatement ("return".toList ++ ' ' :: (name.toList ++ [';']))
      (.returnStatement (some (.identifier name))) := by
  have hword : ("return", TokenKind.returnKeyword) ∈ statementWords := by decide
  refine of_begins ParserM.returnStatement
    (fun afterOperand rest => begins_statementWord hword afterOperand _) (by decide) rfl
    (fun sub parser word hc hk => ?_) fun room parser rest hon _ hr hd => ?_
  · simp only [statement, run_bind, run_token hc, hk]
  · simp only [List.append_assoc, List.cons_append, List.nil_append, List.length_append,
      List.length_cons] at hon hr hd
    obtain ⟨room, rfl⟩ : ∃ room', room = room' + 1 := ⟨room - 1, by omega⟩
    have hgap : parser.On .returnKeyword none "return".toList ([' '] ++ (name.toList ++ ';' :: rest)) :=
      hon
    obtain ⟨word, p₁, h₁, hk, m₁, hon₁⟩ := run_nextTokenIn hgap
      ((begins_steadyName hn (.mark (by decide)) _).newlines (hn.plain.isName.head_not_space _))
      (LexerMode.skips_space rfl) rfl (isUpdateSpelling_name hn.plain.isName)
    obtain ⟨p₂, h₂, m₂, b₂⟩ : Arrives
        (operandAt (goal arrowAhead (room + 1)) .returnStatement .argument) p₁ _ true _ :=
      arrives_nameOperand hon₁ rfl (halts_semicolon rest) room
        (by rw [m₁.context, m₁.options]; omega)
    obtain ⟨p₃, h₃, m₃, b₃⟩ := arrives_accept_semicolon b₂
    refine ⟨false, p₃, ?_, (m₁.trans m₂).trans m₃, b₃⟩
    simp only [ParserM.returnStatement, run_bind, h₁, hk, reduceCtorEq, if_false, h₂, h₃, run_pure]

/-- The kind of the token for a jump. -/
def jumpToken : JumpKind → TokenKind
  | .nextRound => .continueKeyword
  | .leaveLoop => .breakKeyword

/-- A jump takes its label in with its own token. -/
theorem jump {kind : JumpKind} {label : Option String} (hl : ∀ name ∈ label, IsName name.toList) :
    ReadsStatement (kind.keyword.toList ++ (clauseText label ++ [';']))
      (.jump kind (label.map .identifier)) := by
  have hword : (kind.keyword, jumpToken kind) ∈ jumpWords := by cases kind <;> decide
  have hkind : (if jumpToken kind = .breakKeyword then JumpKind.leaveLoop else .nextRound) = kind := by
    cases kind <;> rfl
  refine @of_first (jumpToken kind) none (label.elim [] String.toList) [';'] _ _
    (fun _ => ParserM.jump) (fun afterOperand rest => ?_) (by cases kind <;> decide) ?_
    (fun sub parser word hc hk => ?_) fun room parser rest hon _ _ _ => ?_
  · have hne : kind.keyword.toList ≠ [] := by cases kind <;> decide
    cases label with
    | none =>
      obtain ⟨rule, hr, hk, hp⟩ := first?_jump hword afterOperand
        (jump_plain kind.keyword.toList rest) (by simpa [Lexeme.raw] using hne)
      exact ⟨rule, _, by simpa [clauseText] using hr, hk, hp, rfl, by simp [clauseText, Lexeme.raw]⟩
    | some name =>
      obtain ⟨rule, hr, hk, hp⟩ := first?_jump hword afterOperand
        (jump_label kind.keyword.toList (hl name rfl) rest) (by simp [Lexeme.raw])
      exact ⟨rule, _, by simpa [clauseText] using hr, hk, hp, rfl, by simp [clauseText, Lexeme.raw]⟩
  · cases label with
    | none => rfl
    | some name => exact isUpdateSpelling_name (hl name rfl)
  · simp only [statement, run_bind, run_token hc, hk]
    cases kind <;> rfl
  · obtain ⟨word, ht, -, hk, hv, -⟩ := run_token_of_on hon
    have hlabel : (if word.value.isEmpty = true then none else some (Node.identifier word.value)) =
        label.map .identifier := by
      rw [hv]
      cases label with
      | none => rfl
      | some name =>
        have hne : name ≠ "" := by
          rintro rfl
          exact absurd (hl "" rfl) (by decide)
        simp [hne]
    obtain ⟨p₁, h₁, m₁, b₁⟩ := arrives_nextToken hon
    obtain ⟨p₂, h₂, m₂, b₂⟩ := arrives_accept_semicolon b₁
    refine ⟨false, p₂, ?_, m₁.trans m₂, b₂⟩
    simp only [ParserM.jump, run_bind, ht, h₁, h₂, hk, hkind, hlabel, run_pure]

end ReadsStatement

end ScriptTree
