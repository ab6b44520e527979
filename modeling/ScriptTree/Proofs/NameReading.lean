import ScriptTree.Proofs.Keywords
import ScriptTree.Proofs.Reading

/-!
Names where only a name can stand. There every name is read as one, also a keyword: the token that it
was taken for is read again. None of these steps looks for an arrow, so arrows may stand in the text.
-/

namespace ScriptTree

theorem Pattern.value_mem_spellings {pattern : Pattern} {text : List Char} {lexeme : Lexeme}
    (h : pattern.apply text = some lexeme) (hs : pattern.spellings ≠ []) :
    String.ofList lexeme.value ∈ pattern.spellings := by
  cases pattern with
  | words spellings | punctuators spellings =>
    obtain ⟨word, hw, rfl⟩ := Option.map_eq_some_iff.mp h
    simpa [Lexeme.whole, Pattern.spellings] using List.mem_of_find?_eq_some hw
  | form lexical =>
    cases lexical <;> simp only [spellings, ne_eq, not_true_eq_false] at hs
    case relationalWord =>
      have hall : ∀ word ∈ [['i', 'n', 's', 't', 'a', 'n', 'c', 'e', 'o', 'f'], ['i', 'n'],
          ['o', 'f']], String.ofList word ∈ ["instanceof", "in", "of"] :=
        fun _ hw => List.mem_map_of_mem hw
      obtain ⟨word, hw, hm⟩ := List.exists_of_findSome?_eq_some h
      split at hm
      · split at hm <;> cases hm
        exact hall word hw
      · cases hm

theorem first?_anyName {name rest : List Char} (h : IsName name) (hb : atBoundary rest = true)
    (afterOperand : Bool) :
    ∃ rule lexeme, Rule.first? .default afterOperand (name ++ rest) = some (rule, lexeme) ∧
      rule.kind.isTrivia = false ∧ (rule.kind = .identifierName ∨ rule.kind.isKeyword = true ∨
        rule.kind = .operator ∧ (String.ofList lexeme.value).toList.all Char.isAlpha = true) := by
  cases hf : Rule.beforeNames.findSome? (fun rule =>
      if rule.appliesIn .default afterOperand then rule.match? (name ++ rest) else none) with
  | none =>
    obtain ⟨rule, hr, hk, -⟩ : Begins .default afterOperand .identifierName none name rest := by
      refine begins_of_beforeNames (Or.inl rfl) h hb fun rule hr ha => ?_
      simpa [ha] using List.findSome?_eq_none_iff.mp hf rule hr
    exact ⟨rule, _, hr, by rw [hk]; rfl, Or.inl hk⟩
  | some found =>
    obtain ⟨rule, lexeme⟩ := found
    have hfirst : Rule.first? .default afterOperand (name ++ rest) = some (rule, lexeme) := by
      obtain ⟨others, ht⟩ := Rule.table_eq
      rw [Rule.first?, if_neg (by decide), ht, List.findSome?_append, hf, Option.some_or]
    obtain ⟨found, hr, hm⟩ := List.exists_of_findSome?_eq_some hf
    have hm' : found.match? (name ++ rest) = some (rule, lexeme) := by
      split at hm
      · exact hm
      · cases hm
    have he : found = rule := by
      obtain ⟨_, -, he⟩ := Option.map_eq_some_iff.mp hm'
      exact (Prod.mk.inj he).1
    subst he
    rcases Rule.beforeNames_cases found hr with hs | hcase
    · rw [no_symbol_of_isName h hs] at hm'
      cases hm'
    · obtain ⟨ht, hk⟩ := hcase.kind
      refine ⟨found, lexeme, hfirst, ht, Or.inr (hk.imp_right fun h => ⟨h.1, ?_⟩)⟩
      exact h.2.2 _ (Pattern.value_mem_spellings (Rule.applies_of_first hfirst).1 h.2.1)


open ParserM

theorem Lexer.Facing.anyName {lexer : Lexer} {name rest : List Char} {afterOperand : Bool}
    (h : lexer.Facing .default afterOperand (name ++ rest)) (hn : IsName name)
    (hb : atBoundary rest = true) :
    ∃ word, lexer.current = some word ∧ canBeName word = true ∧
      (lexer.reread .names).Shows .identifierName none name true rest := by
  have hne : name ++ rest ≠ [] := by
    refine List.append_ne_nil_of_left_ne_nil ?_ rest
    rintro rfl
    cases hn
  obtain ⟨rule, lexeme, hf, ht, hk⟩ := first?_anyName hn hb afterOperand
  obtain ⟨earlier, newline, hr, rfl⟩ := h.emits hne hf ht
  refine ⟨_, rfl, ?_, ?_⟩
  · simpa [canBeName, emit, or_assoc] using hk
  · have hface : ((earlier.emit earlier.cursor rule.kind lexeme rule.precedence newline).reread
        .names).Facing .names earlier.afterOperand (name ++ rest) :=
      ⟨_, false, hr, rfl, next_eq_nextFrom _ _⟩
    exact hface.shows (begins_anyName hn hb _) rfl (isUpdateSpelling_name hn)

namespace Lexer

variable {lexer : Lexer} {afterOperand : Bool} {c : Char} {rest : List Char}

theorem Facing.shows_mark (kind : TokenKind) (h : lexer.Facing .default afterOperand (c :: rest))
    (hm : (c, kind) ∈ marks) : lexer.Shows kind none [c] kind.closesOperand rest := by
  obtain ⟨hk, hv⟩ := marks_facts hm
  exact h.shows (begins_mark hm afterOperand rest) hk hv

theorem Facing.shows_brace (kind : TokenKind) (h : lexer.Facing .default afterOperand (c :: rest))
    (hm : (c, kind) ∈ braces) : lexer.Shows kind none [c] kind.closesOperand rest := by
  have hfacts : ∀ entry ∈ braces, entry.2.isOrdinary = true ∧ isUpdateSpelling [entry.1] = false := by
    decide
  obtain ⟨hk, hv⟩ := hfacts _ hm
  exact h.shows (begins_brace hm afterOperand rest) hk hv

end Lexer

namespace ParserM

variable {α : Type} {parser : Parser} {afterOperand : Bool} {rest : List Char}

/-- A step that gives a result and moves the parser on to a text, in which arrows may stand. -/
abbrev LeadsTo (m : ParserM α) (parser : Parser) (a : α) (afterOperand : Bool) (text : List Char) :
    Prop :=
  Leads m parser a fun after => after.lexer.Facing .default afterOperand text

theorem leadsTo_pure (a : α) (h : parser.lexer.Facing .default afterOperand rest) :
    LeadsTo (pure a) parser a afterOperand rest :=
  ⟨parser, rfl, .refl parser, h⟩

section Shows

variable {kind : TokenKind} {precedence : Option Nat} {value : List Char}

theorem leadsTo_nextToken (h : parser.lexer.Shows kind precedence value afterOperand rest) :
    LeadsTo nextToken parser () afterOperand rest :=
  ⟨_, rfl, ⟨_, _, rfl⟩, h.next .default⟩

theorem leadsTo_require (h : parser.lexer.Shows kind precedence value afterOperand rest) :
    LeadsTo (require kind) parser () afterOperand rest := by
  refine (leadsTo_nextToken h).of_eq ?_
  simp only [require, run_bind, run_isAt_of_shows h, beq_self_eq_true, if_true]

theorem leadsTo_accept (h : parser.lexer.Shows kind precedence value afterOperand rest) :
    LeadsTo (accept kind) parser true afterOperand rest := by
  have hn : LeadsTo (nextToken >>= fun _ => pure true) parser true afterOperand rest :=
    (leadsTo_nextToken h).bind fun _ _ hf => leadsTo_pure true hf
  refine hn.of_eq ?_
  simp only [accept, run_bind, run_isAt_of_shows h, beq_self_eq_true, if_true]

theorem run_accept_of_shows_ne (h : parser.lexer.Shows kind precedence value afterOperand rest)
    (other : TokenKind) (ho : kind ≠ other) : accept other parser = .ok false parser := by
  have hb : (kind == other) = false := beq_eq_false_iff_ne.mpr ho
  simp only [accept, run_bind, run_isAt_of_shows h, hb, Bool.false_eq_true, if_false, run_pure]

theorem run_isAtText_of_shows (h : parser.lexer.Shows kind precedence value afterOperand rest)
    (other : TokenKind) (text : String) :
    isAtText other text parser = .ok (kind == other && String.ofList value == text) parser := by
  obtain ⟨word, hc, rfl, hv, -⟩ := h.token
  simp only [isAtText, run_bind, run_current, hc, Option.any_some, Token.isText, hv, run_pure]

theorem leadsTo_requireText {text : String}
    (h : parser.lexer.Shows kind precedence text.toList afterOperand rest) :
    LeadsTo (requireText kind text) parser () afterOperand rest := by
  refine (leadsTo_nextToken h).of_eq ?_
  simp only [requireText, run_bind, run_isAtText_of_shows h, beq_self_eq_true, String.ofList_toList,
    Bool.and_self, if_true]

theorem leadsTo_acceptText {text : String}
    (h : parser.lexer.Shows kind precedence text.toList afterOperand rest) :
    LeadsTo (acceptText kind text) parser true afterOperand rest := by
  have hn : LeadsTo (nextToken >>= fun _ => pure true) parser true afterOperand rest :=
    (leadsTo_nextToken h).bind fun _ _ hf => leadsTo_pure true hf
  refine hn.of_eq ?_
  simp only [acceptText, run_bind, run_isAtText_of_shows h, beq_self_eq_true, String.ofList_toList,
    Bool.and_self, if_true]

theorem run_acceptText_of_ne (h : parser.lexer.Shows kind precedence value afterOperand rest)
    (other : TokenKind) (text : String) (ho : kind ≠ other) :
    acceptText other text parser = .ok false parser := by
  have hb : (kind == other) = false := beq_eq_false_iff_ne.mpr ho
  simp only [acceptText, run_bind, run_isAtText_of_shows h, hb, Bool.false_and, Bool.false_eq_true,
    if_false, run_pure]

end Shows

/-- Every name is read as a name where only a name can stand. -/
theorem leadsTo_name {name : String} (h : parser.lexer.Facing .default afterOperand (name.toList ++ rest))
    (hn : IsName name.toList) (hb : atBoundary rest = true) :
    LeadsTo ParserM.name parser (.identifier name) true rest := by
  obtain ⟨word, hw, hcan, hagain⟩ := h.anyName hn hb
  obtain ⟨again, hc, -, hv, -⟩ := hagain.token
  refine ⟨{ parser with lexer := (parser.lexer.reread .names).next .default }, ?_, ⟨_, _, rfl⟩,
    hagain.next .default⟩
  simp only [ParserM.name, reread, nextToken, run_bind, run_token hw, hcan, if_true, run_modifyLexer,
    run_current, hc, Option.getD_some, hv, String.ofList_toList, run_pure]

end ParserM

end ScriptTree
