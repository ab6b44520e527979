import ScriptTree.Proofs.ChainGrouping
import ScriptTree.Proofs.NameLists

/-!
Names with a mark right behind them, or with nothing.

A steady name is read as a name there. A misread one is taken for the keyword of a function, of which no
more is found before a mark that closes something: so what it stands in is not read.
-/

namespace ScriptTree

open ParserM

/-- The marks that close what a name stands in, or go on to the next name. -/
def closingMarks : List Char := [',', ')', ']', '\x7d']

/-- The marks that make a name a longer operand. -/
def extendingMarks : List Char := ['.', '[', '(']

/-- What may stand right behind a name: a mark, or nothing. -/
inductive EndsMarked : List Char → Prop
  | nil : EndsMarked []
  | closing {c : Char} {rest : List Char} : c ∈ closingMarks → EndsMarked (c :: rest)
  | extending {c : Char} {rest : List Char} : c ∈ extendingMarks → EndsMarked (c :: rest)

namespace EndsMarked

variable {rest : List Char}

/-- A mark goes on with no name, is no white space, and starts no star and no word. -/
theorem cons_facts (h : EndsMarked rest) : rest = [] ∨ ∃ c behind, rest = c :: behind ∧
    isNamePart c = false ∧ isSpace c = false ∧ c ≠ '*' ∧ c ≠ 'f' := by
  have hall : ∀ c ∈ closingMarks ++ extendingMarks,
      isNamePart c = false ∧ isSpace c = false ∧ c ≠ '*' ∧ c ≠ 'f' := by
    intro c hc
    simp only [closingMarks, extendingMarks, List.cons_append, List.nil_append, List.mem_cons,
      List.not_mem_nil, or_false] at hc
    rcases hc with rfl | rfl | rfl | rfl | rfl | rfl | rfl <;> decide
  cases h with
  | nil => exact Or.inl rfl
  | closing hc => exact Or.inr ⟨_, _, rfl, hall _ (List.mem_append_left _ hc)⟩
  | extending hc => exact Or.inr ⟨_, _, rfl, hall _ (List.mem_append_right _ hc)⟩

theorem atBoundary (h : EndsMarked rest) : atBoundary rest = true := by
  rcases h.cons_facts with rfl | ⟨c, behind, rfl, hpart, -⟩
  · rfl
  · rw [ScriptTree.atBoundary, hpart, Bool.not_false]

theorem afterSpace_eq (h : EndsMarked rest) : afterSpace rest = rest := by
  rcases h.cons_facts with rfl | ⟨c, behind, rfl, -, hspace, -⟩
  · rfl
  · rw [afterSpace, List.dropWhile_cons_of_neg (by simp [hspace])]

theorem not_starFollows (h : EndsMarked rest) : ¬StarFollows rest := by
  rw [StarFollows, h.afterSpace_eq]
  rcases h.cons_facts with rfl | ⟨c, behind, rfl, -, -, hstar, -⟩
  · simp
  · rw [List.head?_cons, Option.some_inj]
    exact hstar

theorem begins_steadyName (h : EndsMarked rest) {name : List Char} (hn : IsSteadyName name)
    (afterOperand : Bool) : Begins .default afterOperand .identifierName none name rest := by
  rcases h.cons_facts with rfl | ⟨c, behind, rfl, -, -, hstar, hf⟩
  · exact begins_name hn.plain rfl (fun _ _ _ => rfl) hn.whole afterOperand
  · exact begins_steadyName_of_head hn h.atBoundary h.afterSpace_eq hstar hf afterOperand

/-- Where a misread name stands, the current token is the keyword of a function. -/
theorem shows_misread (h : EndsMarked rest) {name : List Char} (hm : Misread [] name)
    (hn : IsName name) {lexer : Lexer} {afterOperand : Bool}
    (hf : lexer.Facing .default afterOperand (name ++ rest)) :
    lexer.Shows .functionKeyword none name false rest :=
  hf.shows (hm.begins h.atBoundary h.not_starFollows afterOperand) rfl (isUpdateSpelling_name hn)

end EndsMarked

/-- A plain name that is not steady is misread. -/
theorem IsPlainName.misread {name : List Char} (h : IsPlainName name) (hs : ¬IsSteadyName name) :
    Misread [] name := by
  by_contra hm
  exact hs ⟨h, hm⟩

/-- A plain name without white space is steady. -/
theorem IsPlainName.steady_of_any {name : List Char} (h : IsPlainName name)
    (hs : name.any isSpace = false) : IsSteadyName name :=
  h.steady fun c hc => by simpa using List.any_eq_false.mp hs c hc

/-- There is a plain name that is not steady. -/
theorem misread_asyncFunction : IsPlainName "async\u200cfunction".toList ∧
    ¬IsSteadyName "async\u200cfunction".toList := by
  have hplain : IsPlainName "async\u200cfunction".toList := by decide +kernel
  have hgap : IsGap ['\u200c'] := ⟨List.cons_ne_nil _ _, List.forall_mem_singleton.mpr rfl⟩
  have hmisread : Misread [] "async\u200cfunction".toList := .async hgap
  exact ⟨hplain, fun hsteady => hsteady.whole hmisread⟩

/-- A closing mark is none of the tokens that go on with a function, also where all words are read as
names. -/
theorem exists_closingMark {lexer : Lexer} {c : Char} {rest : List Char} (hc : c ∈ closingMarks)
    (h : lexer.Facing .names false (c :: rest)) : ∃ word, lexer.current = some word ∧
      word.kind ≠ .identifierName ∧ word.kind ≠ .openParen := by
  have mark {kind : TokenKind} {rules : List Rule} (hs : Rule.startingWith c = rules)
      (hr : ∃ rule, (rules.findSome? fun rule =>
        if rule.appliesIn .names false then rule.match? (c :: rest) else none) =
          some (rule, .whole [c]) ∧ rule.kind = kind ∧ rule.precedence = none)
      (hk : kind.isOrdinary = true) (hu : isUpdateSpelling [c] = false)
      (hne : kind ≠ .identifierName ∧ kind ≠ .openParen) : ∃ word, lexer.current = some word ∧
        word.kind ≠ .identifierName ∧ word.kind ≠ .openParen := by
    obtain ⟨word, hw, rfl⟩ := Lexer.Facing.exists_symbol h rfl hs hr hk hu
    exact ⟨word, hw, hne⟩
  simp only [closingMarks, List.mem_cons, List.not_mem_nil, or_false] at hc
  rcases hc with rfl | rfl | rfl | rfl
  · exact mark (Rule.startingWith_of_lookup rfl) ⟨_, rfl, rfl, rfl⟩ rfl rfl (by decide)
  · exact mark (Rule.startingWith_of_lookup rfl) ⟨_, rfl, rfl, rfl⟩ rfl rfl (by decide)
  · exact mark (Rule.startingWith_of_lookup rfl) ⟨_, rfl, rfl, rfl⟩ rfl rfl (by decide)
  · exact mark (Rule.startingWith_of_lookup rfl) ⟨_, rfl, rfl, rfl⟩ rfl rfl (by decide)

namespace ParserM

variable {parser : Parser} {afterOperand : Bool} {rest : List Char} {name : String} {frame : Frame}

/-- A steady name is an operand of its own where what follows does not continue it. -/
theorem leadsTo_markedName (hn : IsSteadyName name.toList) (he : EndsMarked rest)
    (h : parser.lexer.Facing .default afterOperand (name.toList ++ rest)) (hf : frame.isEnclosing = true)
    (hh : Halts frame rest) (room : Nat) (hb : 0 < parser.budget)
    (hd : parser.context.length < parser.options.maxDepth) :
    LeadsTo (within frame (goal arrowAhead (room + 1) .operand)) parser (.identifier name) true rest :=
  leadsTo_nameOperand
    (h.shows (he.begins_steadyName hn afterOperand) rfl (isUpdateSpelling_name hn.plain.isName)) hf hh
    room hb hd

/-- A misread name is no operand before a closing mark. -/
theorem fails_markedName {c : Char} (hm : Misread [] name.toList) (hn : IsName name.toList)
    (hc : c ∈ closingMarks)
    (h : parser.lexer.Facing .default afterOperand (name.toList ++ c :: rest))
    (hf : frame.isEnclosing = true) (room : Nat) :
    Fails (within frame (goal arrowAhead (room + 1) .operand)) parser := by
  have he : EndsMarked (c :: rest) := .closing hc
  exact fails_misreadName hm hn he.atBoundary he.not_starFollows
    (fun lexer hface => exists_closingMark hc hface) h hf room

/-- A text that starts with a misread name is not one statement that is an expression: a declaration
starts there. -/
theorem ofSourceWith_ne_of_misread {options : ParserOptions} {source : String} {name : List Char}
    (hs : source.toList = name ++ rest) (hm : Misread [] name) (hn : IsName name) (he : EndsMarked rest)
    (tree : Node) : Node.ofSourceWith options source ≠ .ok (.program [.expressionStatement tree]) := by
  intro h
  obtain ⟨after, hx⟩ := statementAt_of_ofSourceWith h
  obtain ⟨_, hx⟩ := ok_of_within_ok hx
  have hface : (Parser.started source options).lexer.Facing .default false (name ++ rest) := by
    rw [← hs]
    exact Parser.facing_started source options
  obtain ⟨word, hw, hk, -⟩ := (he.shows_misread hm hn hface).token
  cases hroom : options.maxDepth with
  | zero =>
    rw [hroom] at hx
    cases hx
  | succ room =>
    rw [hroom] at hx
    obtain ⟨word', _, ht, hx⟩ := ok_of_bind_ok hx
    cases ht.symm.trans (run_token hw)
    rw [hk] at hx
    -- the statement that starts with that keyword is a function, and no expression
    obtain ⟨_, _, _, _, _, _, hfunction⟩ := function_yields _ _ _ _ hx
    cases hfunction

/-! ### Lists of names -/

/-- Names with commas between them. -/
def commaNames (names : List String) : List Char :=
  ", ".toList.intercalate (names.map String.toList)

theorem commaNames_singleton (name : String) : commaNames [name] = name.toList := by
  rw [commaNames, List.map_singleton, List.intercalate_singleton]

theorem commaNames_cons_cons (name next : String) (names : List String) :
    commaNames (name :: next :: names) = name.toList ++ ',' :: ' ' :: commaNames (next :: names) := by
  simp [commaNames]

section Lists

variable (hf : frame.isEnclosing = true) (hcomma : frame.claimsComma = true)
include hf hcomma

/-- A steady name of a list is read, and is not taken for the end of the list. -/
theorem leadsTo_listedName {c : Char} (hn : IsSteadyName name.toList) (hc : c = ',' ∨ c = ')')
    (h : parser.lexer.Facing .default afterOperand (name.toList ++ c :: rest)) (room : Nat)
    (hb : 0 < parser.budget) (hd : parser.context.length < parser.options.maxDepth) :
    isAt .closeParen parser = .ok false parser ∧
      LeadsTo (within frame (goal arrowAhead (room + 1) .operand)) parser (.identifier name) true
        (c :: rest) := by
  have hclosing : c ∈ closingMarks := by rcases hc with rfl | rfl <;> decide
  have hhalts : Halts frame (c :: rest) := by
    rcases hc with rfl | rfl
    · exact halts_comma hcomma
    · exact halts_close rest
  have hshows := h.shows ((EndsMarked.closing hclosing).begins_steadyName hn afterOperand) rfl
    (isUpdateSpelling_name hn.plain.isName)
  exact ⟨run_isAt_of_shows hshows _, leadsTo_markedName hn (.closing hclosing) h hf hhalts room hb hd⟩

/-- Steady names up to a closing parenthesis, which is the next token then. -/
theorem leadsTo_commaNames {names : List String} (hn : ∀ name ∈ names, IsSteadyName name.toList)
    (h : parser.lexer.Facing .default afterOperand (commaNames names ++ ')' :: rest)) (room : Nat)
    {rounds : Nat} (hr : names.length < rounds) (hb : 0 < parser.budget)
    (hd : parser.context.length < parser.options.maxDepth) :
    ∃ afterOperand', LeadsTo (commaList .closeParen
      (within frame (goal arrowAhead (room + 1) .operand)) rounds) parser (names.map .identifier)
        afterOperand' (')' :: rest) := by
  rcases List.eq_nil_or_concat names with rfl | ⟨earlier, last, rfl⟩
  · have hface : parser.lexer.Facing .default afterOperand (')' :: rest) := h
    exact ⟨afterOperand, parser, run_commaList_nil (hface.shows_mark .closeParen (by decide)) hr,
      .refl parser, hface⟩
  · rw [List.concat_eq_append] at hn h hr ⊢
    rw [commaNames, intercalate_append _ _ (List.cons_ne_nil last []), List.map_singleton,
      List.intercalate_singleton, List.append_assoc] at h
    rw [List.length_append, List.length_singleton] at hr
    rw [List.map_append, List.map_singleton]
    refine ⟨true, leads_items ?_ ?_ h (Nat.lt_of_succ_lt hr)⟩
    · intro name hname between afterOperand behind hm hface
      have hread := leadsTo_listedName hf hcomma (hn name (List.mem_append_left _ hname)) (Or.inl rfl)
        hface room (by rw [hm.budget]; exact hb) (by rw [hm.context, hm.options]; exact hd)
      exact ⟨hread.1, true, hread.2⟩
    · intro between afterOperand hm hface
      have hlast : last ∈ earlier ++ [last] := List.mem_append_right _ (List.mem_singleton_self last)
      obtain ⟨hat, after, hx, hm', hface'⟩ := leadsTo_listedName hf hcomma (hn last hlast) (Or.inr rfl)
        hface room (by rw [hm.budget]; exact hb) (by rw [hm.context, hm.options]; exact hd)
      refine ⟨hat, after, hx, hm', hface', ?_⟩
      intro word hword
      obtain ⟨found, hfound, hk, -⟩ := (Lexer.Facing.shows_mark .closeParen hface' (by decide)).token
      rw [hfound] at hword
      cases hword
      rw [hk]
      decide

/-- Steady names in parentheses, from behind the opening one on. -/
theorem leadsTo_closedNames {names : List String} (hn : ∀ name ∈ names, IsSteadyName name.toList)
    (h : parser.lexer.Facing .default afterOperand (commaNames names ++ ')' :: rest)) (room : Nat)
    (hb : names.length < parser.budget) (hd : parser.context.length < parser.options.maxDepth) :
    LeadsTo (closedList .closeParen (within frame (goal arrowAhead (room + 1) .operand))) parser
      (names.map .identifier) true rest := by
  obtain ⟨_, p₁, h₁, m₁, f₁⟩ :=
    leadsTo_commaNames hf hcomma hn h room hb (Nat.zero_lt_of_lt hb) hd
  obtain ⟨p₂, h₂, m₂, f₂⟩ := leadsTo_require (Lexer.Facing.shows_mark .closeParen f₁ (by decide))
  refine ⟨p₂, ?_, m₁.trans m₂, f₂⟩
  simp only [closedList, run_bind, run_budget, h₁, h₂, run_pure]

omit hcomma in
/-- A misread name of a list is not read, and is not taken for the end of the list either. -/
theorem fails_listedName {names : List String} {rounds : Nat} (hm : Misread [] name.toList)
    (hn : IsName name.toList)
    (h : parser.lexer.Facing .default afterOperand (commaNames (name :: names) ++ ')' :: rest))
    (room : Nat) :
    Fails (commaList .closeParen (within frame (goal arrowAhead (room + 1) .operand)) rounds)
      parser := by
  obtain ⟨c, behind, hc, ht⟩ : ∃ c behind, c ∈ closingMarks ∧
      commaNames (name :: names) ++ ')' :: rest = name.toList ++ c :: behind := by
    cases names with
    | nil => exact ⟨')', rest, by decide, by rw [commaNames_singleton]⟩
    | cons next names =>
      refine ⟨',', ' ' :: commaNames (next :: names) ++ ')' :: rest, by decide, ?_⟩
      rw [commaNames_cons_cons, List.append_assoc]
      rfl
  rw [ht] at h
  have hat := run_isAt_of_shows ((EndsMarked.closing hc).shows_misread hm hn h) .closeParen
  obtain ⟨failure, after, hx⟩ := fails_markedName hm hn hc h hf room
  cases rounds with
  | zero => exact ⟨_, _, rfl⟩
  | succ rounds =>
    have hno : (TokenKind.functionKeyword == .closeParen) = false := rfl
    refine ⟨failure, after, ?_⟩
    simp only [commaList, run_bind, hat, hno, Bool.false_eq_true, if_false, hx]

/-- One misread name spoils a list, by induction on the names: those before it are read. -/
theorem fails_commaNames {names : List String} (hp : ∀ name ∈ names, IsPlainName name.toList)
    (hm : ∃ name ∈ names, ¬IsSteadyName name.toList)
    (h : parser.lexer.Facing .default afterOperand (commaNames names ++ ')' :: rest)) (room rounds : Nat)
    (hb : 0 < parser.budget) (hd : parser.context.length < parser.options.maxDepth) :
    Fails (commaList .closeParen (within frame (goal arrowAhead (room + 1) .operand)) rounds)
      parser := by
  induction names generalizing parser afterOperand rounds with
  | nil =>
    obtain ⟨name, hname, -⟩ := hm
    cases hname
  | cons name names ih =>
    have hname := hp name List.mem_cons_self
    by_cases hs : IsSteadyName name.toList
    · obtain ⟨bad, hbad, hno⟩ :=
        ((List.exists_mem_cons_iff _ name names).mp hm).resolve_left (not_not_intro hs)
      cases names with
      | nil => cases hbad
      | cons next names =>
        rw [commaNames_cons_cons, List.append_assoc] at h
        obtain ⟨hat, p₁, h₁, m₁, f₁⟩ :=
          leadsTo_listedName hf hcomma hs (Or.inl rfl) h room hb hd
        obtain ⟨p₂, h₂, m₂, f₂⟩ := leadsTo_accept (Lexer.Facing.shows_mark .comma f₁ (by decide))
        have m₁₂ := m₁.trans m₂
        have f₂' : p₂.lexer.Facing .default false
            ([' '] ++ (commaNames (next :: names) ++ ')' :: rest)) := f₂
        cases rounds with
        | zero => exact ⟨_, _, rfl⟩
        | succ rounds =>
          obtain ⟨failure, after, hx⟩ := ih (fun other hin => hp other (List.mem_cons_of_mem _ hin))
            ⟨bad, hbad, hno⟩ (f₂'.pass (LexerMode.skips_space rfl)) rounds
            (by rw [m₁₂.budget]; exact hb) (by rw [m₁₂.context, m₁₂.options]; exact hd)
          refine ⟨failure, after, ?_⟩
          simp only [commaList, run_bind, hat, Bool.false_eq_true, if_false, h₁, h₂, if_true] at hx ⊢
          rw [hx]
    · exact fails_listedName hf (hname.misread hs) hname.isName h room

end Lists

end ParserM

end ScriptTree
