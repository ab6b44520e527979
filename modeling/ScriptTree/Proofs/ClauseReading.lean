import ScriptTree.Proofs.FormulaPlaces
import ScriptTree.Proofs.NameReading
import ScriptTree.Proofs.StatementTokens

/-!
The clauses of statements that are names: conditions in parentheses, and declarations of variables.
-/

namespace ScriptTree

/-- A name that is read as such wherever an expression may stand. It is no keyword, and no white space
in it splits a keyword off. -/
structure IsSteadyName (name : List Char) : Prop where
  plain : IsPlainName name
  whole : ¬Misread [] name

theorem IsPlainName.steady {name : List Char} (h : IsPlainName name)
    (hs : ∀ c ∈ name, isSpace c = false) : IsSteadyName name where
  plain := h
  whole := fun hm => by
    obtain ⟨c, hc, hsp⟩ := hm.exists_mem
    rw [hs c hc] at hsp
    cases hsp

/-- What follows a name in a clause: a mark, or one of `in`, `of` and `=` behind a space. -/
inductive EndsClause : List Char → Prop
  | mark {c : Char} {rest : List Char} : c ∈ [';', ')', ',', ':'] → EndsClause (c :: rest)
  | word {c : Char} {rest : List Char} : c ∈ ['i', 'o', '='] → EndsClause (' ' :: c :: rest)

namespace EndsClause

variable {rest : List Char}

theorem atBoundary (h : EndsClause rest) : atBoundary rest = true := by
  cases h with
  | mark hc =>
    simp only [List.mem_cons, List.not_mem_nil, or_false] at hc
    rcases hc with rfl | rfl | rfl | rfl <;> rfl
  | word => rfl

theorem afterSpace_head (h : EndsClause rest) :
    ∃ c behind, c ∈ [';', ')', ',', ':', 'i', 'o', '='] ∧ afterSpace rest = c :: behind := by
  cases h with
  | @mark c rest hc =>
    refine ⟨c, rest, by simp only [List.mem_cons] at hc ⊢; tauto, ?_⟩
    simp only [List.mem_cons, List.not_mem_nil, or_false] at hc
    rcases hc with rfl | rfl | rfl | rfl <;> rfl
  | @word c rest hc =>
    refine ⟨c, rest, by simp only [List.mem_cons] at hc ⊢; tauto, ?_⟩
    simp only [List.mem_cons, List.not_mem_nil, or_false] at hc
    rcases hc with rfl | rfl | rfl <;> rfl

end EndsClause

/-- A steady name is read as such where a boundary follows, and neither a star nor `function` behind
white space. -/
theorem begins_steadyName_of_head {name rest behind : List Char} {c : Char} (h : IsSteadyName name)
    (hb : atBoundary rest = true) (he : afterSpace rest = c :: behind) (hs : c ≠ '*') (hf : c ≠ 'f')
    (afterOperand : Bool) : Begins .default afterOperand .identifierName none name rest := by
  have hstar : ¬StarFollows rest := by
    rw [StarFollows, he, List.head?_cons, Option.some_inj]
    exact hs
  have hfunction : afterSpelling? Scan.functionWord (afterSpace rest) = none := by
    rw [he, Scan.functionWord]
    exact afterSpelling?_cons_of_ne hf _ _
  refine begins_name h.plain hb (fun _ _ _ => hfunction) (fun hm => ?_) afterOperand
  cases hm with
  | yield _ hs | function _ hs | asyncStar _ _ hs => exact hstar hs
  | async hg => exact h.whole (.async hg)

theorem begins_steadyName {name rest : List Char} (h : IsSteadyName name) (he : EndsClause rest)
    (afterOperand : Bool) : Begins .default afterOperand .identifierName none name rest := by
  obtain ⟨c, behind, hc, hspace⟩ := he.afterSpace_head
  refine begins_steadyName_of_head h he.atBoundary hspace ?_ ?_ afterOperand <;>
  · rintro rfl
    simp at hc

namespace ParserM

variable {parser : Parser} {afterOperand : Bool} {rest : List Char}

/-- A name is an operand of its own where what follows does not continue it. -/
theorem arrives_nameOperand {name : String} {frame : Frame}
    (hon : parser.On .identifierName none name.toList rest) (hf : frame.isEnclosing = true)
    (hh : Halts frame rest) (room : Nat) (hd : parser.context.length < parser.options.maxDepth) :
    Arrives (within frame (goal arrowAhead (room + 1) .operand)) parser (.identifier name) true
      rest := by
  refine Arrives.within ?_ hd
  have hfresh : Arrives (fresh arrowAhead (goal arrowAhead room))
      { parser with context := frame :: parser.context } (.identifier name) true rest := by
    have h : Arrives (fresh arrowAhead (goal arrowAhead room)) _ _ true rest :=
      arrives_fresh_identifier (hon.enter frame)
    rwa [String.ofList_toList] at h
  obtain ⟨after, hx, hm, hb⟩ := operand_of_fresh (isExtending_of_isEnclosing hf) hfresh
  refine ⟨after, ?_, hm, hb⟩
  have hbudget : 0 < parser.budget := Nat.zero_lt_of_lt hon.budget
  exact hx.trans (extend_halt hb.facing hm.context hh hbudget)

theorem on_steadyName {name : String} (h : parser.Before afterOperand (name.toList ++ rest))
    (hn : IsSteadyName name.toList) (he : EndsClause rest) :
    parser.On .identifierName none name.toList rest :=
  h.on (begins_steadyName hn he afterOperand) rfl (isUpdateSpelling_name hn.plain.isName)

theorem arrives_clause {name : String} (kind : NodeKind) (slot : Slot)
    (h : parser.Before afterOperand (name.toList ++ rest)) (hn : IsSteadyName name.toList)
    (he : EndsClause rest) (hh : Halts (.filling kind slot) rest) (room : Nat)
    (hd : parser.context.length < parser.options.maxDepth) :
    Arrives (operandAt (goal arrowAhead (room + 1)) kind slot) parser (.identifier name) true rest :=
  arrives_nameOperand (on_steadyName h hn he) rfl hh room hd

/-- Only one opening parenthesis may follow the keyword. -/
theorem arrives_enterParens {kind : TokenKind} {precedence : Option Nat} {value : List Char}
    (h : parser.On kind precedence value (' ' :: '(' :: rest)) :
    Arrives enterParens parser () false rest := by
  have h' : parser.On kind precedence value ([' '] ++ (['('] ++ rest)) := h
  obtain ⟨word, between, hx, -, hm, hon⟩ :=
    run_nextTokenIn h' (begins_openParen _ _) (LexerMode.skips_space rfl) rfl rfl
  obtain ⟨after, hx', hm', hb⟩ := arrives_nextToken hon
  refine ⟨after, ?_, hm.trans hm', hb⟩
  simp only [enterParens, run_bind, hx, hx']

theorem halts_close {frame : Frame} (rest : List Char) : Halts frame (')' :: rest) :=
  halts_mark (show (')', TokenKind.closeParen) ∈ marks by decide) rfl

theorem halts_semicolon {frame : Frame} (rest : List Char) : Halts frame (';' :: rest) :=
  halts_mark (show (';', TokenKind.semicolon) ∈ marks by decide) rfl

/-- A condition, with the parenthesis that closes it. -/
theorem arrives_condition {name : String} (kind : NodeKind) (slot : Slot)
    (h : parser.Before afterOperand (name.toList ++ ')' :: rest)) (hn : IsSteadyName name.toList)
    (room : Nat) (hd : parser.context.length < parser.options.maxDepth) :
    Arrives (condition (goal arrowAhead (room + 1)) kind slot) parser (.identifier name) true
      rest := by
  refine (arrives_clause kind slot h hn (.mark (by decide)) (halts_close rest) room hd).bind fun p₁ _ b₁ => ?_
  exact (arrives_require (b₁.on_mark (by decide))).bind fun _ _ b₂ => .pure _ b₂

end ParserM

namespace ParserM

variable {parser : Parser} {afterOperand : Bool} {rest : List Char}

theorem arrives_acceptText {kind : TokenKind} {precedence : Option Nat} {text : String}
    (h : parser.On kind precedence text.toList rest) :
    Arrives (acceptText kind text) parser true kind.closesOperand rest := by
  have hn : Arrives (nextToken >>= fun _ => pure true) parser true kind.closesOperand rest :=
    (arrives_nextToken h).bind fun _ _ hb => .pure true hb
  refine hn.of_eq ?_
  simp only [acceptText, run_bind, run_isAtText_of_shows h.shows, beq_self_eq_true,
    String.ofList_toList, Bool.and_self, if_true]

end ParserM

theorem ForEachKind.begins (kind : ForEachKind) (rest : List Char) :
    Begins .default true .operator (some 11) kind.keyword.toList (' ' :: rest) := by
  cases kind <;> exact begins_binary (by rw [Operator.binaries_eq]; decide) rest

theorem ForEachKind.head_not_space (kind : ForEachKind) (rest : List Char) :
    ∀ c ∈ (kind.keyword.toList ++ rest).head?, isSpace c = false := by
  cases kind <;> (rintro _ ⟨⟩; rfl)

/-- The word of a loop head behind a name. -/
theorem Parser.Before.on_forEachWord {parser : Parser} {kind : ForEachKind} {rest : List Char}
    (h : parser.Before true (' ' :: (kind.keyword.toList ++ ' ' :: rest))) :
    parser.On .operator (some 11) kind.keyword.toList (' ' :: rest) := by
  have hu : isUpdateSpelling kind.keyword.toList = false := by cases kind <;> rfl
  exact (h.skip (Or.inl rfl) (kind.head_not_space _)).on (kind.begins rest) rfl hu

/-- A name that is declared, and the name of its value if it gets one. -/
structure NameDeclarator where
  /-- The name that is declared. -/
  target : String
  /-- The name of its value. -/
  value : Option String

namespace NameDeclarator

open ParserM

variable {parser : Parser} {rest : List Char}

/-- The declarator as a node. -/
def node (declarator : NameDeclarator) : Node :=
  .variableDeclarator (.identifier declarator.target) (declarator.value.map .identifier)

/-- How the value of a declarator is written. -/
def valueText (declarator : NameDeclarator) : List Char :=
  match declarator.value with
  | some value => " = ".toList ++ value.toList
  | none => []

/-- How a declarator is written. -/
def text (declarator : NameDeclarator) : List Char :=
  declarator.target.toList ++ declarator.valueText

/-- All names are plain ones. The declared one is read where no keyword is looked for. -/
structure IsPlain (declarator : NameDeclarator) : Prop where
  target : IsPlainName declarator.target.toList
  value : ∀ value ∈ declarator.value, IsSteadyName value.toList

/-- What may follow a declarator: a mark, or in the head of a loop a word if there is no value. -/
inductive EndsAt (declarator : NameDeclarator) : List Char → Prop
  | mark {c : Char} {rest : List Char} : c = ',' ∨ c = ';' → EndsAt declarator (c :: rest)
  | word {kind : ForEachKind} {rest : List Char} : declarator.value = none →
    EndsAt declarator (' ' :: (kind.keyword.toList ++ ' ' :: rest))

theorem halts_mark {slot : Slot} {c : Char} (hc : c = ',' ∨ c = ';') (rest : List Char) :
    Halts (.filling .variableDeclarator slot) (c :: rest) := by
  rcases hc with rfl | rfl
  · exact halts_comma rfl
  · exact halts_semicolon rest

theorem halts_word (kind : ForEachKind) (rest : List Char) :
    Halts (.filling .variableDeclarator .target) (' ' :: (kind.keyword.toList ++ ' ' :: rest)) := by
  have hu : isUpdateSpelling kind.keyword.toList = false := by cases kind <;> rfl
  refine (halts_of_begins (kind.begins rest) rfl hu fun word operand outer hw hv => ?_).skip
    (kind.head_not_space _)
  have hu' : Operator.isUpdate word.value = false := by
    rw [hv, String.ofList_toList]
    cases kind <;> rfl
  simp [Context.admits, hw, hu', Frame.admitsBinary, Frame.isDeclaratorTarget]

theorem halts_value (rest : List Char) :
    Halts (.filling .variableDeclarator .target) (' ' :: '=' :: ' ' :: rest) := by
  have hb : Begins .default true .assignmentOperator none "=".toList (' ' :: rest) :=
    begins_assignment (by rw [Operator.assignments_eq]; decide) rest
  refine (halts_of_begins hb rfl rfl fun word operand outer hw hv => ?_).skip ?_
  · simp [Context.admits, hw, Frame.admitsAssignment, Frame.isDeclaratorTarget]
  · rintro _ ⟨⟩
    rfl

/-- What follows a declarator does not continue it. -/
theorem EndsAt.halts {declarator : NameDeclarator} (h : declarator.EndsAt rest) :
    Halts (.filling .variableDeclarator .target) rest := by
  cases h with
  | mark hc => exact halts_mark hc _
  | word => exact halts_word _ _

theorem EndsAt.run_acceptText {declarator : NameDeclarator} (h : declarator.EndsAt rest)
    (hb : parser.Before true rest) :
    acceptText .assignmentOperator "=" parser = .ok false parser := by
  cases h with
  | @mark c rest hc =>
    rcases hc with rfl | rfl
    · have hon : parser.On .comma none [','] rest := hb.on_mark (by decide)
      exact run_acceptText_of_ne hon.shows _ _ nofun
    · have hon : parser.On .semicolon none [';'] rest := hb.on_mark (by decide)
      exact run_acceptText_of_ne hon.shows _ _ nofun
  | word => exact run_acceptText_of_ne hb.on_forEachWord.shows _ _ nofun

/-- A declarator whose name has just been read. -/
theorem IsPlain.arrives {declarator : NameDeclarator} (hp : declarator.IsPlain)
    (hon : parser.On .identifierName none declarator.target.toList (declarator.valueText ++ rest))
    (hr : declarator.EndsAt rest) (room : Nat)
    (hd : parser.context.length < parser.options.maxDepth) :
    Arrives (ParserM.declarator (goal arrowAhead (room + 1))) parser declarator.node true rest := by
  obtain ⟨target, value⟩ := declarator
  cases value with
  | none =>
    refine (arrives_nameOperand hon rfl hr.halts room hd).bind fun p₁ _ b₁ => ?_
    refine ⟨p₁, ?_, .refl p₁, b₁⟩
    have hno := hr.run_acceptText b₁
    simp only [run_bind, hno, Bool.false_eq_true, if_false, run_pure]
    rfl
  | some value =>
    have hvalue : valueText ⟨target, some value⟩ ++ rest =
        ' ' :: '=' :: ' ' :: (value.toList ++ rest) := by
      simp [valueText]
    rw [hvalue] at hon
    obtain ⟨c, rest, hc, rfl⟩ : ∃ c tail, (c = ',' ∨ c = ';') ∧ rest = c :: tail := by
      cases hr with
      | mark hc => exact ⟨_, _, hc, rfl⟩
      | word hv => cases hv
    have hsteady := hp.value value rfl
    refine (arrives_nameOperand hon rfl (halts_value _) room hd).bind fun p₁ m₁ b₁ => ?_
    -- behind the name stands the sign, and behind that the value
    have hsign : p₁.On .assignmentOperator none "=".toList (' ' :: (value.toList ++ c :: rest)) := by
      have hb := b₁.skip (Or.inl rfl) (by rintro _ ⟨⟩; rfl)
      exact hb.on (begins_assignment (by rw [Operator.assignments_eq]; decide) _) rfl rfl
    refine (arrives_acceptText hsign).bind fun p₂ m₂ b₂ => ?_
    rw [if_pos rfl]
    have hd₂ : p₂.context.length < p₂.options.maxDepth := by
      rw [(m₁.trans m₂).context, (m₁.trans m₂).options]
      exact hd
    have hends : EndsClause (c :: rest) := .mark (by rcases hc with rfl | rfl <;> decide)
    have b₂' := b₂.skip (Or.inl rfl) (hsteady.plain.isName.head_not_space _)
    exact (arrives_clause _ _ b₂' hsteady hends (halts_mark hc _) room hd₂).bind fun _ _ b₃ => .pure _ b₃

end NameDeclarator

/-- How declarators are written. -/
def declaratorsText (declarators : List NameDeclarator) : List Char :=
  ", ".toList.intercalate (declarators.map NameDeclarator.text)

theorem declaratorsText_singleton (declarator : NameDeclarator) :
    declaratorsText [declarator] = declarator.target.toList ++ declarator.valueText := by
  simp [declaratorsText, NameDeclarator.text]

theorem declaratorsText_cons_cons (first next : NameDeclarator) (others : List NameDeclarator) :
    declaratorsText (first :: next :: others) =
      first.target.toList ++ (first.valueText ++ ',' :: ' ' :: declaratorsText (next :: others)) := by
  simp [declaratorsText, NameDeclarator.text]

theorem NameDeclarator.atBoundary_valueText (declarator : NameDeclarator) {rest : List Char}
    (h : atBoundary rest = true) : atBoundary (declarator.valueText ++ rest) = true := by
  obtain ⟨target, _ | value⟩ := declarator
  · exact h
  · rfl

/-- Declarators start with the name of the first one. -/
theorem exists_declaratorsText (first : NameDeclarator) (others : List NameDeclarator)
    {rest : List Char} (h : atBoundary rest = true) :
    ∃ text, declaratorsText (first :: others) ++ rest = first.target.toList ++ text ∧
      atBoundary text = true := by
  cases others with
  | nil =>
    refine ⟨first.valueText ++ rest, ?_, first.atBoundary_valueText h⟩
    rw [declaratorsText_singleton, List.append_assoc]
  | cons next others =>
    refine ⟨first.valueText ++ ',' :: ' ' :: (declaratorsText (next :: others) ++ rest), ?_,
      first.atBoundary_valueText rfl⟩
    simp [declaratorsText_cons_cons]

theorem length_le_declaratorsText (first : NameDeclarator) (others : List NameDeclarator) :
    others.length ≤ (declaratorsText (first :: others)).length := by
  induction others generalizing first with
  | nil => exact Nat.zero_le _
  | cons next others ih =>
    have hrest := ih next
    simp only [declaratorsText_cons_cons, List.length_append, List.length_cons]
    omega

/-- What may follow declarators: a semicolon, or the word of a loop head behind a single name. -/
inductive EndsDeclaration (declarators : List NameDeclarator) : List Char → Prop
  | semicolon (rest : List Char) : EndsDeclaration declarators (';' :: rest)
  | word {name : String} (kind : ForEachKind) (rest : List Char) : declarators = [⟨name, none⟩] →
    EndsDeclaration declarators (' ' :: (kind.keyword.toList ++ ' ' :: rest))

theorem EndsDeclaration.atBoundary {declarators : List NameDeclarator} {rest : List Char}
    (h : EndsDeclaration declarators rest) : atBoundary rest = true := by
  cases h <;> rfl

theorem EndsDeclaration.last {declarator : NameDeclarator} {rest : List Char}
    (h : EndsDeclaration [declarator] rest) : declarator.EndsAt rest := by
  cases h with
  | semicolon => exact .mark (Or.inr rfl)
  | word _ _ he =>
    cases he
    exact .word rfl

namespace ParserM

variable {parser : Parser} {rest : List Char}

theorem EndsDeclaration.run_isAt {declarators : List NameDeclarator}
    (h : EndsDeclaration declarators rest) (hb : parser.Before true rest) :
    isAt .comma parser = .ok false parser := by
  cases h with
  | semicolon rest =>
    have hon : parser.On .semicolon none [';'] rest := hb.on_mark (by decide)
    exact run_isAt_of_on hon .comma
  | word => exact run_isAt_of_on hb.on_forEachWord .comma

/-- The name of a first declarator, read behind a token and a space. Any word may be that name. -/
theorem run_nextTokenIn_names {kind : TokenKind} {precedence : Option Nat} {value : List Char}
    {first : NameDeclarator} {others : List NameDeclarator} (hp : first.IsPlain)
    (hr : atBoundary rest = true)
    (hon : parser.On kind precedence value (' ' :: (declaratorsText (first :: others) ++ rest))) :
    ∃ word between text, nextTokenIn .names parser = .ok (some word) between ∧
      parser.Moved between ∧
      declaratorsText (first :: others) ++ rest = first.target.toList ++ text ∧
      between.On .identifierName none first.target.toList text := by
  obtain ⟨text, ht, hb⟩ := exists_declaratorsText first others hr
  rw [ht] at hon
  have hname := hp.target.isName
  have hgap : parser.On kind precedence value ([' '] ++ (first.target.toList ++ text)) := hon
  obtain ⟨word, between, hx, -, hm, hon'⟩ := run_nextTokenIn hgap (begins_anyName hname hb _)
    (LexerMode.skips_space rfl) rfl (isUpdateSpelling_name hname)
  exact ⟨word, between, text, hx, hm, ht, hon'⟩

/-- Declarators, of which the first name has just been read. -/
theorem arrives_declarators {first : NameDeclarator} {others : List NameDeclarator}
    (hp : ∀ declarator ∈ first :: others, declarator.IsPlain) {text : List Char}
    (ht : declaratorsText (first :: others) ++ rest = first.target.toList ++ text)
    (hon : parser.On .identifierName none first.target.toList text)
    (hr : EndsDeclaration (first :: others) rest) (room : Nat) {rounds : Nat}
    (hrounds : others.length < rounds) (hd : parser.context.length < parser.options.maxDepth) :
    Arrives (declarators (goal arrowAhead (room + 1)) rounds) parser
      ((first :: others).map NameDeclarator.node) true rest := by
  have hfirst := hp first List.mem_cons_self
  induction others generalizing parser first text rounds with
  | nil =>
    obtain ⟨rounds, rfl⟩ := Nat.exists_eq_succ_of_ne_zero (Nat.ne_zero_of_lt hrounds)
    rw [declaratorsText_singleton, List.append_assoc] at ht
    obtain rfl := List.append_cancel_left ht
    refine (hfirst.arrives hon hr.last room hd).bind fun p₁ _ b₁ => ?_
    refine ⟨p₁, ?_, .refl p₁, b₁⟩
    have hno := EndsDeclaration.run_isAt hr b₁
    simp only [run_bind, hno, Bool.false_eq_true, if_false, run_pure]
    rfl
  | cons next others ih =>
    obtain ⟨rounds, rfl⟩ := Nat.exists_eq_succ_of_ne_zero (Nat.ne_zero_of_lt hrounds)
    obtain ⟨rest, rfl⟩ : ∃ tail, rest = ';' :: tail := by
      cases hr with
      | semicolon tail => exact ⟨tail, rfl⟩
      | word _ _ he => cases he
    have hp' : ∀ declarator ∈ next :: others, declarator.IsPlain := fun declarator hm =>
      hp declarator (List.mem_cons_of_mem first hm)
    have hnext := hp' next List.mem_cons_self
    rw [declaratorsText_cons_cons, List.append_assoc, List.append_assoc] at ht
    obtain rfl := List.append_cancel_left ht
    refine (hfirst.arrives hon (.mark (Or.inl rfl)) room hd).bind fun p₁ m₁ b₁ => ?_
    have hcomma : p₁.On .comma none [','] (' ' :: (declaratorsText (next :: others) ++ ';' :: rest)) :=
      b₁.on_mark (by decide)
    obtain ⟨word, p₂, text, h₂, m₂, ht, hon₂⟩ := run_nextTokenIn_names hnext rfl hcomma
    obtain ⟨p₃, h₃, m₃, b₃⟩ := ih hp' ht hon₂ (.semicolon rest) (Nat.lt_of_succ_lt_succ hrounds)
      (by rw [(m₁.trans m₂).context, (m₁.trans m₂).options]; exact hd) hnext
    refine ⟨p₃, ?_, m₂.trans m₃, b₃⟩
    simp only [run_bind, run_isAt_of_on hcomma, beq_self_eq_true, if_true, h₂, h₃, run_pure,
      List.map_cons]

theorem ofKeyword?_keyword (kind : VariableKind) :
    VariableKind.ofKeyword? kind.keyword = some kind := by
  cases kind <;> rfl

/-- A declaration without a semicolon. -/
theorem arrives_variableDeclaration {kind : VariableKind} {first : NameDeclarator}
    {others : List NameDeclarator} (hp : ∀ declarator ∈ first :: others, declarator.IsPlain)
    (hon : parser.On .declarationKeyword none kind.keyword.toList
      (' ' :: (declaratorsText (first :: others) ++ rest)))
    (hr : EndsDeclaration (first :: others) rest) (room : Nat)
    (hd : parser.context.length < parser.options.maxDepth) :
    Arrives (variableDeclaration (goal arrowAhead (room + 1))) parser
      (.variableDeclaration kind ((first :: others).map NameDeclarator.node)) true rest := by
  obtain ⟨word, ht, -, -, hv, -⟩ := run_token_of_on hon
  rw [String.ofList_toList] at hv
  obtain ⟨next, p₁, text, h₁, m₁, htext, hon₁⟩ :=
    run_nextTokenIn_names (hp first List.mem_cons_self) hr.atBoundary hon
  have hrounds : others.length < p₁.budget := by
    have hl := hon.budget
    have hlist := length_le_declaratorsText first others
    simp only [List.length_cons, List.length_append] at hl
    rw [m₁.budget]
    omega
  obtain ⟨p₂, h₂, m₂, b₂⟩ := arrives_declarators hp htext hon₁ hr room hrounds
    (by rw [m₁.context, m₁.options]; exact hd)
  refine ⟨p₂, ?_, m₁.trans m₂, b₂⟩
  simp only [variableDeclaration, run_bind, ht, hv, ofKeyword?_keyword, h₁, run_budget, h₂, run_pure]

end ParserM

end ScriptTree
