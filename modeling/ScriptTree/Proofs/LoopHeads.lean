import ScriptTree.Proofs.StatementReading

/-!
Loops with a head: their clauses, and the words that tell them apart.
-/

namespace ScriptTree

namespace ParserM

variable {parser : Parser} {afterOperand : Bool} {rest : List Char}

theorem arrives_startName {name : String} (hb : parser.Before afterOperand (name.toList ++ rest))
    (hn : IsSteadyName name.toList) (he : EndsClause rest)
    (hh : Halts (.filling .forStatement .initial) rest) (room : Nat)
    (hd : parser.context.length < parser.options.maxDepth) :
    Arrives (forStart (goal arrowAhead (room + 1))) parser (some (.identifier name)) true rest := by
  obtain ⟨word, ht, -, hk, -⟩ := run_token_of_on (on_steadyName hb hn he)
  obtain ⟨after, hx, hm, hb'⟩ := arrives_clause .forStatement .initial hb hn he hh room hd
  refine ⟨after, ?_, hm, hb'⟩
  simp only [forStart, run_bind, ht, hk, hx, run_pure]

theorem arrives_startDeclaration {kind : VariableKind} {first : NameDeclarator}
    {others : List NameDeclarator} (hp : ∀ declarator ∈ first :: others, declarator.IsPlain)
    (hb : parser.Before afterOperand
      (kind.keyword.toList ++ ' ' :: (declaratorsText (first :: others) ++ rest)))
    (hr : EndsDeclaration (first :: others) rest) (room : Nat)
    (hd : parser.context.length + 1 < parser.options.maxDepth) :
    Arrives (forStart (goal arrowAhead (room + 1))) parser
      (some (.variableDeclaration kind ((first :: others).map NameDeclarator.node))) true rest := by
  have hword : (kind.keyword, TokenKind.declarationKeyword) ∈ statementWords := by
    cases kind <;> decide
  have hon := on_statementWord hb hword
  obtain ⟨word, ht, -, hk, -⟩ := run_token_of_on hon
  have hin := arrives_variableDeclaration hp (hon.enter (.filling .forStatement .initial)) hr room hd
  obtain ⟨after, hx, hm, hb'⟩ := hin.within (by omega)
  refine ⟨after, ?_, hm, hb'⟩
  simp only [forStart, run_bind, ht, hk, hx, run_pure]

/-- The first clause of a loop with three of them. -/
theorem arrives_forStart {start : ForStart} (hp : start.IsPlain)
    (hb : parser.Before afterOperand (start.text ++ ';' :: rest)) (room : Nat)
    (hd : parser.context.length + 1 < parser.options.maxDepth) :
    ∃ afterOperand', Arrives (forStart (goal arrowAhead (room + 1))) parser start.node? afterOperand'
      (';' :: rest) := by
  cases start with
  | nothing =>
    have hon : parser.On .semicolon none [';'] rest := hb.on_mark (by decide)
    obtain ⟨word, ht, -, hk, -⟩ := run_token_of_on hon
    refine ⟨afterOperand, parser, ?_, .refl parser, hb⟩
    simp only [forStart, run_bind, ht, hk, run_pure]
    rfl
  | name word =>
    exact ⟨true, arrives_startName hb hp (.mark (by decide)) (halts_semicolon rest) room (by omega)⟩
  | declaration kind first others =>
    have hb' : parser.Before afterOperand
        (kind.keyword.toList ++ ' ' :: (declaratorsText (first :: others) ++ ';' :: rest)) := by
      simpa [ForStart.text] using hb
    exact ⟨true, arrives_startDeclaration hp hb' (.semicolon rest) room hd⟩

theorem halts_forEachWord (kind : ForEachKind) (rest : List Char) :
    Halts (.filling .forStatement .initial) (' ' :: (kind.keyword.toList ++ ' ' :: rest)) := by
  have hu : isUpdateSpelling kind.keyword.toList = false := by cases kind <;> rfl
  refine (halts_of_begins (kind.begins rest) rfl hu fun word operand outer hw hv => ?_).skip
    (kind.head_not_space _)
  rw [String.ofList_toList] at hv
  cases kind <;> simp [Context.admits, hw, hv, Frame.admitsBinary, ForEachKind.keyword,
    Operator.isUpdate]

/-- What a loop gives the members of a value to. The word behind it belongs to the loop. -/
theorem arrives_eachTarget {target : EachTarget} {kind : ForEachKind} (hp : target.IsPlain)
    (hb : parser.Before afterOperand
      (target.text ++ ' ' :: (kind.keyword.toList ++ ' ' :: rest))) (room : Nat)
    (hd : parser.context.length + 1 < parser.options.maxDepth) :
    Arrives (forStart (goal arrowAhead (room + 1))) parser (some target.node) true
      (' ' :: (kind.keyword.toList ++ ' ' :: rest)) := by
  cases target with
  | name word =>
    have hends : EndsClause (' ' :: (kind.keyword.toList ++ ' ' :: rest)) := by
      cases kind <;> exact .word (by decide)
    exact arrives_startName hb hp hends (halts_forEachWord kind rest) room (by omega)
  | declaration variableKind word =>
    have hone : ∀ declarator ∈ [NameDeclarator.mk word none], declarator.IsPlain := by
      intro declarator hm
      rw [List.mem_singleton.mp hm]
      exact ⟨hp, nofun⟩
    have hb' : parser.Before afterOperand (variableKind.keyword.toList ++ ' ' ::
        (declaratorsText [⟨word, none⟩] ++ ' ' :: (kind.keyword.toList ++ ' ' :: rest))) := by
      simpa [EachTarget.text] using hb
    exact arrives_startDeclaration hone hb' (.word kind rest rfl) room hd

/-- A further clause of a loop, which may be left out. -/
theorem arrives_forClause {clause : Option String} (hn : IsSteadyClause clause) {c : Char}
    (close : TokenKind) (hc : (c, close) ∈ [(';', .semicolon), (')', .closeParen)]) (slot : Slot)
    (hb : parser.Before afterOperand (clauseText clause ++ c :: rest)) (room : Nat)
    (hd : parser.context.length < parser.options.maxDepth) :
    ∃ afterOperand', Arrives (forClause (goal arrowAhead (room + 1)) close slot) parser
      (clause.map .identifier) afterOperand' (c :: rest) := by
  have hfacts : (c, close) ∈ marks ∧ canExtend close = false ∧ c ∈ [';', ')', ',', ':'] ∧
      close ≠ .identifierName := by
    simp only [List.mem_cons, Prod.mk.injEq, List.not_mem_nil, or_false] at hc
    rcases hc with ⟨rfl, rfl⟩ | ⟨rfl, rfl⟩ <;> decide
  obtain ⟨hm, hk, hmem, hne⟩ := hfacts
  cases clause with
  | none =>
    have hon : parser.On close none [c] rest := hb.on_mark hm
    refine ⟨afterOperand, parser, ?_, .refl parser, hb⟩
    simp only [forClause, run_bind, run_isAt_of_on hon, beq_self_eq_true, if_true, run_pure]
    rfl
  | some name =>
    have hname := hn name rfl
    have hb' : parser.Before afterOperand (name.toList ++ c :: rest) := by
      have h : parser.Before afterOperand (' ' :: (name.toList ++ c :: rest)) := hb
      exact h.space
    have hon := on_steadyName hb' hname (.mark hmem)
    obtain ⟨p₁, h₁, m₁, b₁⟩ := arrives_clause .forStatement slot hb' hname (.mark hmem)
      (halts_mark hm hk) room hd
    have hno : (TokenKind.identifierName == close) = false := beq_eq_false_iff_ne.mpr hne.symm
    refine ⟨true, p₁, ?_, m₁, b₁⟩
    simp only [forClause, run_bind, run_isAt_of_on hon, hno, Bool.false_eq_true, if_false, h₁,
      run_pure]
    rfl

end ParserM

namespace ReadsStatement

open ParserM

variable {text : List Char} {node : Node}

/-- A text that starts with the keyword of a loop and a parenthesis. -/
theorem of_forHead {head : String} (h : head ∈ ["for", "for await"]) {behind : List Char}
    (hreads : ∀ (room : Nat) (parser : Parser) (rest : List Char),
      parser.On .forKeyword none head.toList (behind ++ rest) →
      (node.endsOpen = true → Heads NoElse rest) → behind.length ≤ room →
      parser.context.length + behind.length < parser.options.maxDepth →
      ∃ afterOperand, Arrives (forStatement (goal arrowAhead room)) parser node afterOperand rest) :
    ReadsStatement (head.toList ++ ' ' :: '(' :: behind) node := by
  refine of_first forStatement (fun afterOperand rest => ?_) (by decide) ?_
    (fun sub parser word hc hk => ?_) hreads
  · have hf := first?_forHead h afterOperand (behind ++ rest)
    exact ⟨_, _, by rw [List.append_assoc]; exact hf, rfl, rfl, rfl, by simp [Lexeme.raw]⟩
  · simp only [List.mem_cons, List.not_mem_nil, or_false] at h
    rcases h with rfl | rfl <;> decide
  · simp only [statement, run_bind, run_token hc, hk]

theorem forLoop {start : ForStart} {test step : Option String} (hs : start.IsPlain)
    (ht : IsSteadyClause test) (hp : IsSteadyClause step) (h : ReadsStatement text node) :
    ReadsStatement ("for".toList ++ ' ' :: '(' :: (start.text ++ ';' :: (clauseText test ++ ';' ::
        (clauseText step ++ ')' :: ' ' :: text))))
      (.forStatement start.node? (test.map .identifier) (step.map .identifier) node) := by
  refine of_forHead (by decide) fun room parser rest hon he hr hd => ?_
  simp only [List.append_assoc, List.cons_append, List.length_append, List.length_cons] at hon hr hd
  obtain ⟨room, rfl⟩ : ∃ room', room = room' + 1 := ⟨room - 1, by omega⟩
  obtain ⟨word, hw, -⟩ := run_token_of_on hon
  obtain ⟨p₁, h₁, m₁, b₁⟩ := arrives_nextToken hon
  obtain ⟨_, p₂, h₂, m₂, b₂⟩ := arrives_forStart hs b₁ room (by rw [m₁.context, m₁.options]; omega)
  obtain ⟨p₃, h₃, m₃, b₃⟩ := arrives_accept_semicolon b₂
  have m₁₃ := (m₁.trans m₂).trans m₃
  obtain ⟨_, p₄, h₄, m₄, b₄⟩ := arrives_forClause ht .semicolon (by decide) .test b₃ room
    (by rw [m₁₃.context, m₁₃.options]; omega)
  obtain ⟨p₅, h₅, m₅, b₅⟩ := arrives_require_semicolon b₄
  have m₁₅ := (m₁₃.trans m₄).trans m₅
  obtain ⟨_, p₆, h₆, m₆, b₆⟩ := arrives_forClause hp .closeParen (by decide) .step b₅ room
    (by rw [m₁₅.context, m₁₅.options]; omega)
  obtain ⟨p₇, h₇, m₇, b₇⟩ := arrives_require_close b₆
  have m₁₇ := (m₁₅.trans m₆).trans m₇
  obtain ⟨afterOperand, p₈, h₈, m₈, b₈⟩ := h.within (room + 1) b₇.space he .forStatement .body
    (by omega) (by rw [m₁₇.context, m₁₇.options]; omega)
  refine ⟨afterOperand, p₈, ?_, m₁₇.trans m₈, b₈⟩
  simp only [forStatement, run_bind, hw, h₁, h₂, h₃, if_true, forRest, h₄, h₅, h₆, h₇, h₈, run_pure]

theorem forEach {kind : ForEachKind} {target : EachTarget} {right : String} {awaits : Bool}
    (hp : target.IsPlain) (hn : IsSteadyName right.toList) (h : ReadsStatement text node) :
    ReadsStatement ((eachWords awaits).toList ++ ' ' :: '(' :: (target.text ++ ' ' ::
        (kind.keyword.toList ++ ' ' :: (right.toList ++ ')' :: ' ' :: text))))
      (.forEach kind target.node (.identifier right) node awaits) := by
  have hhead : eachWords awaits ∈ ["for", "for await"] := by cases awaits <;> decide
  refine of_forHead hhead fun room parser rest hon he hr hd => ?_
  simp only [List.append_assoc, List.cons_append, List.length_append, List.length_cons] at hon hr hd
  obtain ⟨room, rfl⟩ : ∃ room', room = room' + 1 := ⟨room - 1, by omega⟩
  obtain ⟨word, hw, -, -, hv, -⟩ := run_token_of_on hon
  have hawaits : Scan.awaitWord.isSuffixOf word.value.toList = awaits := by
    rw [hv]
    cases awaits <;> decide
  obtain ⟨p₁, h₁, m₁, b₁⟩ := arrives_nextToken hon
  obtain ⟨p₂, h₂, m₂, b₂⟩ := arrives_eachTarget hp b₁ room (by rw [m₁.context, m₁.options]; omega)
  have m₁₂ := m₁.trans m₂
  have hword := b₂.on_forEachWord
  obtain ⟨word', hw', -, hk', hv', -⟩ := run_token_of_on hword
  have hno : accept .semicolon p₂ = .ok false p₂ := run_accept_of_ne hword nofun
  have hkind : forEachKind? word' = some kind := by
    rw [String.ofList_toList] at hv'
    cases kind <;> simp [forEachKind?, Token.isText, hk', hv', ForEachKind.keyword]
  obtain ⟨p₃, h₃, m₃, b₃⟩ := arrives_nextToken hword
  have m₁₃ := m₁₂.trans m₃
  obtain ⟨p₄, h₄, m₄, b₄⟩ := arrives_condition (forEachNodeKind kind) .right b₃.space hn room
    (by rw [m₁₃.context, m₁₃.options]; omega)
  have m₁₄ := m₁₃.trans m₄
  obtain ⟨afterOperand, p₅, h₅, m₅, b₅⟩ := h.within (room + 1) b₄.space he (forEachNodeKind kind)
    .body (by omega) (by rw [m₁₄.context, m₁₄.options]; omega)
  refine ⟨afterOperand, p₅, ?_, m₁₄.trans m₅, b₅⟩
  simp only [forStatement, run_bind, hw, h₁, h₂, hno, Bool.false_eq_true, if_false, forEachRest, hw',
    hkind, h₃, h₄, h₅, run_pure, hawaits]

end ReadsStatement

end ScriptTree
