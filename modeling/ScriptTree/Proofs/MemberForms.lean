import ScriptTree.Proofs.MemberPrinting
import ScriptTree.Proofs.NameForms

/-!
Objects of members that are names, with defaults or without them. A name that stands alone is read as a
key and stands for its value as well. If it stands twice, the second is read as an operand, where some
names are taken for the start of a function.
-/

namespace ScriptTree

open ParserM

/-- A symbol that one of few rules reads alone is the current token where the stream faces it. -/
theorem Lexer.Facing.exists_symbol {lexer : Lexer} {mode : LexerMode} {afterOperand : Bool} {c : Char}
    {text : List Char} {kind : TokenKind} {rules : List Rule}
    (h : lexer.Facing mode afterOperand ([c] ++ text)) (hm : mode.template = false)
    (hs : Rule.startingWith c = rules)
    (hr : ∃ rule, (rules.findSome? fun rule =>
      if rule.appliesIn mode afterOperand then rule.match? (c :: text) else none) =
        some (rule, .whole [c]) ∧ rule.kind = kind ∧ rule.precedence = none)
    (hk : kind.isOrdinary = true) (hu : isUpdateSpelling [c] = false) :
    ∃ word, lexer.current = some word ∧ word.kind = kind := by
  obtain ⟨rule, hr, hkind, hprecedence⟩ := hr
  have hb : Begins mode afterOperand kind none [c] text :=
    ⟨rule, Rule.first?_of_startingWith hm hs hr, hkind, hprecedence⟩
  obtain ⟨word, hw, hword, -⟩ := (h.shows hb hk hu).token
  exact ⟨word, hw, hword⟩

/-- What follows the name of a member: another member or the end, its value, or its default. -/
inductive EndsMemberName : List Char → Prop
  | item {rest : List Char} : EndsItem rest → EndsMemberName rest
  | value (rest : List Char) : EndsMemberName (':' :: rest)
  | default (rest : List Char) : EndsMemberName (' ' :: '=' :: ' ' :: rest)

/-- The kinds of the tokens that follow the name of a member. -/
def memberMarks : List TokenKind := [.comma, .closeBrace, .colon, .assignmentOperator]

namespace EndsMemberName

variable {rest : List Char}

theorem atBoundary (h : EndsMemberName rest) : atBoundary rest = true := by
  cases h with
  | item h => exact h.atBoundary
  | value => rfl
  | default => rfl

theorem afterSpace_head (h : EndsMemberName rest) :
    ∃ c behind, c ∈ [',', '\x7d', ':', '='] ∧ afterSpace rest = c :: behind := by
  cases h with
  | item h =>
    cases h with
    | comma rest => exact ⟨',', rest, by decide, rfl⟩
    | close rest => exact ⟨'\x7d', rest, by decide, rfl⟩
  | value rest => exact ⟨':', rest, by decide, rfl⟩
  | default rest => exact ⟨'=', ' ' :: rest, by decide, rfl⟩

theorem not_starFollows (h : EndsMemberName rest) : ¬StarFollows rest := by
  obtain ⟨c, behind, hc, he⟩ := h.afterSpace_head
  intro hs
  rw [StarFollows, he] at hs
  cases hs
  simp at hc

theorem begins_steadyName {name : List Char} (h : EndsMemberName rest) (hn : IsSteadyName name)
    (afterOperand : Bool) : Begins .default afterOperand .identifierName none name rest := by
  obtain ⟨c, behind, hc, he⟩ := h.afterSpace_head
  refine begins_steadyName_of_head hn h.atBoundary he ?_ ?_ afterOperand <;>
  · rintro rfl
    simp at hc

/-- No name and no parenthesis comes next, also where all words are read as names. -/
theorem exists_word {lexer : Lexer} {afterOperand : Bool} (h : EndsMemberName rest)
    (hf : lexer.Facing .names afterOperand rest) :
    ∃ word, lexer.current = some word ∧ word.kind ∈ memberMarks := by
  have hspace := LexerMode.skips_space (show LexerMode.names.template = false from rfl)
  have hmark {c : Char} {text : List Char} {kind : TokenKind} {rules : List Rule}
      (hf : lexer.Facing .names afterOperand ([c] ++ text)) (hs : Rule.startingWith c = rules)
      (hr : ∃ rule, (rules.findSome? fun rule =>
        if rule.appliesIn .names afterOperand then rule.match? (c :: text) else none) =
          some (rule, .whole [c]) ∧ rule.kind = kind ∧ rule.precedence = none)
      (hk : kind.isOrdinary = true) (hu : isUpdateSpelling [c] = false) (hin : kind ∈ memberMarks) :
      ∃ word, lexer.current = some word ∧ word.kind ∈ memberMarks := by
    obtain ⟨word, hw, hword⟩ := hf.exists_symbol rfl hs hr hk hu
    exact ⟨word, hw, hword ▸ hin⟩
  cases h with
  | item h =>
    cases h with
    | comma rest => exact hmark hf (Rule.startingWith_of_lookup rfl) ⟨_, by cases afterOperand <;> rfl, rfl, rfl⟩ rfl rfl (by decide)
    | close rest =>
      have hf' : lexer.Facing .names afterOperand ([' '] ++ (['\x7d'] ++ rest)) := hf
      exact hmark (hf'.pass hspace) (Rule.startingWith_of_lookup rfl)
        ⟨_, by cases afterOperand <;> rfl, rfl, rfl⟩ rfl rfl (by decide)
  | value rest => exact hmark hf (Rule.startingWith_of_lookup rfl) ⟨_, by cases afterOperand <;> rfl, rfl, rfl⟩ rfl rfl (by decide)
  | default rest =>
    have hf' : lexer.Facing .names afterOperand ([' '] ++ (['='] ++ ' ' :: rest)) := hf
    exact hmark (hf'.pass hspace) (Rule.startingWith_of_lookup rfl)
      ⟨_, by cases afterOperand <;> rfl, rfl, rfl⟩ rfl rfl (by decide)

end EndsMemberName

namespace Lexer

variable {lexer : Lexer} {afterOperand : Bool} {rest name : List Char}

/-- A plain name in front of a member is no modifier. -/
theorem Facing.onPlainName (h : lexer.Facing .default afterOperand (name ++ rest))
    (hn : IsPlainName name) (he : EndsMemberName rest) : lexer.OnName name rest := by
  obtain ⟨rule, lexeme, hf, ht, hk⟩ := first?_anyName hn.isName he.atBoundary afterOperand
  have hagain := h.reread (append_ne_nil_of_isName hn.isName rest) hf ht .names
  suffices hword : ∃ word, lexer.current = some word ∧ canBeName word = true ∧
      word.isModifier = false by
    obtain ⟨word, hw, hcan, hm⟩ := hword
    exact ⟨hn.isName, he.atBoundary, ⟨word, hw, hcan, fun ht => absurd (hm.symm.trans ht) Bool.false_ne_true⟩,
      hagain⟩
  by_cases hm : Misread [] name
  · -- what it is taken for is the keyword of a function
    have hs := h.shows (hm.begins he.atBoundary he.not_starFollows afterOperand) rfl
      (isUpdateSpelling_name hn.isName)
    obtain ⟨word, hw, hkind, -⟩ := hs.token
    exact ⟨word, hw, by rw [canBeName, hkind]; rfl, by rw [Token.isModifier, Token.isText, hkind]; rfl⟩
  · have hs := h.shows (he.begins_steadyName ⟨hn, hm⟩ afterOperand) rfl (isUpdateSpelling_name hn.isName)
    obtain ⟨word, hw, hkind, hv, -⟩ := hs.token
    have hne : (word.value == "async") = false := by
      rw [beq_eq_false_iff_ne, hv]
      intro heq
      exact hn.fresh (heq ▸ mem_keywords.1)
    refine ⟨word, hw, by rw [canBeName, hkind]; rfl, ?_⟩
    rw [Token.isModifier, Token.isText, hkind, hne]
    rfl

end Lexer

theorem MemberKey.stands_of_isPlainName {name : String} {rest : List Char}
    (hn : IsPlainName name.toList) (he : EndsMemberName rest) : (MemberKey.named name).Stands rest where
  starts := startsMember_of_isName hn.isName he.atBoundary
  lands _ _ hf := hf.onPlainName hn he

namespace ParserM

variable {parser : Parser} {afterOperand : Bool} {rest : List Char}

/-- A closing brace goes on with no operand. -/
theorem halts_closeBrace (frame : Frame) (rest : List Char) : Halts frame ('\x7d' :: rest) := by
  have hb : Begins .default true .closeBrace none ['\x7d'] rest := begins_brace (by decide) true rest
  refine halts_of_begins hb rfl rfl fun word operand outer hk _ => ?_
  by_contra ha
  have hextends := canExtend_of_admits (Bool.not_eq_false _ ▸ ha)
  rw [hk] at hextends
  cases hextends

theorem halts_item {frame : Frame} (hf : frame.claimsComma = true) (h : EndsItem rest) :
    Halts frame rest := by
  cases h with
  | comma rest => exact halts_comma hf
  | close rest => exact (halts_closeBrace frame rest).skip (by rintro _ ⟨⟩; rfl)

/-- Behind what starts an operand and the sign of an assignment, a name is assigned to it. -/
theorem leadsTo_assignedName {left : Node} {value : String} {frame : Frame} {outer : Context}
    {room : Nat} (h : LeadsTo (fresh arrowAhead (goal arrowAhead (room + 1))) parser left afterOperand
      (' ' :: '=' :: ' ' :: (value.toList ++ rest)))
    (hc : parser.context = frame :: outer) (hf : frame.isEnclosing = true)
    (hi : Context.isComplete (frame :: outer) left = false)
    (hne : frame ≠ .filling .newExpression .callee) (ha : frame.admitsAssignment left = true)
    (hn : IsName value.toList) (hv : Begins .default false .identifierName none value.toList rest)
    (hright : Halts (.filling .assignmentExpression .right) rest) (hframe : Halts frame rest)
    (hr : 1 < parser.budget) (hd : parser.context.length + 1 < parser.options.maxDepth) :
    LeadsTo (operand arrowAhead (goal arrowAhead (room + 1))) parser
      (.assignment "=" left (.identifier value)) true rest := by
  obtain ⟨rounds, p₁, hrounds, m₁, -, hsign, hx⟩ :=
    run_operand_left (goal arrowAhead (room + 1)) h (fun _ hs => hs) hc hf hi hne ha hr
      (Nat.lt_of_succ_lt hd)
  let extending : Parser := { p₁ with context := .extending left.kind :: p₁.context }
  have hsign' : extending.lexer.Shows .assignmentOperator none ['='] false _ := hsign
  have hassign := run_assignment (goal arrowAhead (room + 1)) left hsign'
  let p₂ : Parser := { extending with lexer := extending.lexer.next .default }
  have m₂ : extending.Moved p₂ := ⟨_, _, rfl⟩
  have f₂ : p₂.lexer.Facing .default false (value.toList ++ rest) :=
    (hsign'.next .default).skip (Or.inl rfl) (hn.head_not_space rest)
  have hdepth : p₂.context.length = parser.context.length + 1 := by
    rw [m₂.context, List.length_cons, m₁.context]
  obtain ⟨p₃, h₃, m₃, f₃⟩ : LeadsTo (operandAt (goal arrowAhead (room + 1)) .assignmentExpression .right)
      p₂ (.identifier value) true rest :=
    leadsTo_nameOperand (f₂.shows hv rfl (isUpdateSpelling_name hn)) rfl hright room
      (by rw [m₂.budget]; change 0 < p₁.budget; rw [m₁.budget]; omega)
      (by rw [hdepth, m₂.options]; change _ < p₁.options.maxDepth; rw [m₁.options]; exact hd)
  have hassigned : LeadsTo (assignment (goal arrowAhead (room + 1)) left) extending
      (.assignment "=" left (.identifier value)) true rest :=
    ⟨p₃, by rw [hassign, run_bind, h₃]; rfl, m₂.trans m₃, f₃⟩
  obtain ⟨p₄, h₄, m₄, f₄⟩ := Leads.within hassigned (fun _ _ hf => hf)
    (by rw [m₁.context, m₁.options]; exact Nat.lt_of_succ_lt hd)
  refine ⟨p₄, hx.trans ?_, m₁.trans m₄, f₄⟩
  rw [run_bind, h₄]
  exact extend_halt f₄ ((m₁.trans m₄).context.trans hc) hframe hrounds

/-- Where no operand starts, none is read. -/
theorem Fails.operand {room : Nat} (h : Fails (fresh arrowAhead (goal arrowAhead room)) parser)
    (he : parser.context.isExtending = false) :
    Fails (goal arrowAhead (room + 1) .operand) parser := by
  have hfresh : Fails (freshOperand arrowAhead (goal arrowAhead room)) parser := h.bind _
  exact hfresh.of_eq (operand_of_not_extending he)

/-- A misread name is not read as an operand where neither a name nor a parenthesis follows: there is no
function. -/
theorem fails_misreadName {name : List Char} {frame : Frame} (hm : Misread [] name) (hn : IsName name)
    (hb : atBoundary rest = true) (hstar : ¬StarFollows rest)
    (hnext : ∀ lexer : Lexer, lexer.Facing .names false rest → ∃ word, lexer.current = some word ∧
      word.kind ≠ .identifierName ∧ word.kind ≠ .openParen)
    (h : parser.lexer.Facing .default afterOperand (name ++ rest)) (hf : frame.isEnclosing = true)
    (room : Nat) : Fails (within frame (goal arrowAhead (room + 1) .operand)) parser := by
  let inside : Parser := { parser with context := frame :: parser.context }
  have hs : inside.lexer.Shows .functionKeyword none name false rest :=
    h.shows (hm.begins hb hstar afterOperand) rfl (isUpdateSpelling_name hn)
  obtain ⟨word, hw, hk, -⟩ := hs.token
  obtain ⟨next, hcurrent, hname, hparen⟩ := hnext _ (hs.next .names)
  have hfunction : Fails (function (goal arrowAhead room)) inside := by
    obtain ⟨failure, after, hx⟩ : Fails (require .openParen)
        { inside with lexer := inside.lexer.next .names } := fails_require hcurrent hparen
    refine ⟨failure, after, ?_⟩
    simp only [function, nextTokenIn, functionName, functionRest, run_bind, run_token hw, run_get,
      run_modifyLexer, run_current, hcurrent, if_neg hname, run_pure, hx]
  have hfresh : Fails (fresh arrowAhead (goal arrowAhead room)) inside := by
    refine hfunction.of_eq ?_
    simp only [fresh, run_bind, run_token hw, opening, hk]
  exact Fails.within (hfresh.operand (isExtending_of_isEnclosing hf))

/-- Behind a misread name in an object there is no function either. -/
theorem fails_misreadOperand {name : List Char} {frame : Frame} (hm : Misread [] name)
    (hn : IsName name) (he : EndsMemberName rest)
    (h : parser.lexer.Facing .default afterOperand (name ++ rest)) (hf : frame.isEnclosing = true)
    (room : Nat) : Fails (within frame (goal arrowAhead (room + 1) .operand)) parser := by
  apply fails_misreadName hm hn he.atBoundary he.not_starFollows _ h hf room
  intro lexer hface
  obtain ⟨next, hcurrent, hmark⟩ := he.exists_word hface
  have hmarks : ∀ kind ∈ memberMarks, kind ≠ .identifierName ∧ kind ≠ .openParen := by decide
  exact ⟨next, hcurrent, hmarks _ hmark⟩

end ParserM

/-- A member of an object that is a name, with the name of its default if it has one. -/
structure NameMember where
  /-- The name, which stands there alone or twice. -/
  form : NameForm
  /-- The default. -/
  fallback : Option String

namespace NameMember

/-- How a default is written. -/
def fallbackText (member : NameMember) : List Char :=
  match member.fallback with
  | some fallback => ' ' :: '=' :: ' ' :: fallback.toList
  | none => []

/-- What is written behind the name. -/
def tail (member : NameMember) : List Char :=
  (if member.form.isTwice then ':' :: ' ' :: member.form.name.toList else []) ++ member.fallbackText

/-- How a member is written. -/
def text (member : NameMember) : List Char := member.form.name.toList ++ member.tail

/-- The value of a member: the name, or the assignment of the default to it. -/
def value (member : NameMember) : Node :=
  match member.fallback with
  | some fallback => .assignment "=" (.identifier member.form.name) (.identifier fallback)
  | none => .identifier member.form.name

/-- The node of a member. -/
def node (member : NameMember) : Node :=
  .property (.identifier member.form.name) member.value .plain false (!member.form.isTwice) false

/-- The name is a plain one, and that of the default is read as such. -/
structure IsPlain (member : NameMember) : Prop where
  name : IsPlainName member.form.name.toList
  fallback : ∀ fallback ∈ member.fallback, IsSteadyName fallback.toList

/-- If the name stands there twice, it is read as such also the second time. -/
def IsSteady (member : NameMember) : Prop :=
  member.form.isTwice = true → IsSteadyName member.form.name.toList

variable {member : NameMember} {rest : List Char}

theorem endsMemberName_fallbackText (member : NameMember) (h : EndsItem rest) :
    EndsMemberName (member.fallbackText ++ rest) := by
  unfold fallbackText
  split
  · exact .default _
  · exact .item h

theorem endsMemberName_tail (member : NameMember) (h : EndsItem rest) :
    EndsMemberName (member.tail ++ rest) := by
  unfold tail
  split
  · exact .value _
  · exact member.endsMemberName_fallbackText h

end NameMember

namespace ParserM

variable {parser : Parser} {afterOperand : Bool} {rest : List Char} {member : NameMember}

/-- The default of a member, behind the sign. -/
theorem leadsTo_fallback {fallback : String} (hn : IsSteadyName fallback.toList) (hr : EndsItem rest)
    (h : parser.lexer.Facing .default afterOperand (fallback.toList ++ rest)) (room : Nat)
    (hb : 0 < parser.budget) (hd : parser.context.length < parser.options.maxDepth) :
    LeadsTo (operandAt (goal arrowAhead (room + 1)) .assignmentExpression .right) parser
      (.identifier fallback) true rest := by
  have hbegins := (EndsMemberName.item hr).begins_steadyName hn afterOperand
  exact leadsTo_nameOperand (h.shows hbegins rfl (isUpdateSpelling_name hn.plain.isName)) rfl
    (halts_item rfl hr) room hb hd

/-- Behind a name that stands alone comes its default, or nothing. -/
theorem leadsTo_shorthandTail (hp : member.IsPlain) (ht : member.form.isTwice = false)
    (hr : EndsItem rest) (h : parser.lexer.Facing .default true (member.fallbackText ++ rest))
    (room : Nat) (hb : 0 < parser.budget) (hd : parser.context.length < parser.options.maxDepth) :
    LeadsTo (propertyTail (goal arrowAhead (room + 1)) .objectExpression false false .plain
      (.identifier member.form.name) false) parser member.node true rest := by
  obtain ⟨⟨name, isTwice⟩, fallback⟩ := member
  cases ht
  have hshort : ((Node.identifier name).isIdentifier && !false) = true := rfl
  cases fallback with
  | none =>
    obtain ⟨kind, value, behind, hs, hk⟩ := hr.shows h
    have hmarks : ∀ kind ∈ [TokenKind.comma, .closeBrace],
        (kind == .openParen) = false ∧ kind ≠ .colon ∧ kind ≠ .assignmentOperator := by
      decide
    obtain ⟨hparen, hcolon, hsign⟩ := hmarks kind hk
    refine ⟨parser, ?_, .refl parser, h⟩
    simp only [propertyTail, shorthandValue, run_bind, run_isAt_of_shows hs, hparen, hshort,
      run_accept_of_shows_ne hs .colon hcolon, run_acceptText_of_ne hs .assignmentOperator "=" hsign,
      Bool.false_eq_true, if_true, if_false, run_pure]
    rfl
  | some fallback =>
    have h' : parser.lexer.Facing .default true
        (' ' :: (['='] ++ (' ' :: (fallback.toList ++ rest)))) := h
    have hs : parser.lexer.Shows .assignmentOperator none "=".toList false
        ([' '] ++ (fallback.toList ++ rest)) :=
      (h'.skip (Or.inl rfl) (by rintro _ ⟨⟩; rfl)).shows (begins_equals true _) rfl rfl
    have hparen : isAt .openParen parser = .ok false parser := run_isAt_of_shows hs .openParen
    have hcolon := run_accept_of_shows_ne hs .colon (by decide)
    obtain ⟨p₁, h₁, m₁, f₁⟩ := leadsTo_acceptText hs
    obtain ⟨p₂, h₂, m₂, f₂⟩ := leadsTo_fallback (hp.fallback fallback rfl) hr
      (f₁.pass (LexerMode.skips_space rfl)) room (by rw [m₁.budget]; exact hb)
      (by rw [m₁.context, m₁.options]; exact hd)
    refine ⟨p₂, ?_, m₁.trans m₂, f₂⟩
    simp only [propertyTail, shorthandValue, run_bind, hparen, hcolon, hshort, h₁, h₂,
      Bool.false_eq_true, if_true, if_false, run_pure]
    rfl

/-- A name that stands there again is the value, with its default if it has one. -/
theorem leadsTo_memberValue (hp : member.IsPlain) (hn : IsSteadyName member.form.name.toList)
    (hr : EndsItem rest) (h : parser.lexer.Facing .default afterOperand
      (member.form.name.toList ++ (member.fallbackText ++ rest))) (room : Nat)
    (hb : 1 < parser.budget) (hd : parser.context.length + 2 < parser.options.maxDepth) :
    LeadsTo (operandAt (goal arrowAhead (room + 2)) .objectExpression .value) parser member.value true
      rest := by
  have hends := member.endsMemberName_fallbackText hr
  have hs := h.shows (hends.begins_steadyName hn afterOperand) rfl (isUpdateSpelling_name hn.plain.isName)
  have hvalue : Halts (.filling .objectExpression .value) rest := halts_item rfl hr
  obtain ⟨⟨name, isTwice⟩, fallback⟩ := member
  cases fallback with
  | none => exact leadsTo_nameOperand hs rfl hvalue (room + 1) (Nat.lt_of_succ_lt hb) (by omega)
  | some fallback =>
    let inside : Parser := { parser with context := .filling .objectExpression .value :: parser.context }
    have hs' : inside.lexer.Shows .identifierName none name.toList true
        (' ' :: '=' :: ' ' :: (fallback.toList ++ rest)) := hs
    have hfallback := hp.fallback fallback rfl
    have hassigned : LeadsTo (operand arrowAhead (goal arrowAhead (room + 1))) inside
        (.assignment "=" (.identifier name) (.identifier fallback)) true rest :=
      leadsTo_assignedName (leadsTo_fresh_identifier hs') rfl rfl rfl (by decide) rfl hfallback.plain.isName
        ((EndsMemberName.item hr).begins_steadyName hfallback false) (halts_item rfl hr) hvalue hb hd
    exact Leads.within hassigned (fun _ _ hf => hf) (by omega)

/-- Behind a colon, the value of a member is still to come. -/
theorem exists_memberValue (ht : member.form.isTwice = true)
    (h : parser.lexer.Facing .default true (member.tail ++ rest)) (sub : Goal → ParserM Node) :
    ∃ between, parser.Moved between ∧ between.lexer.Facing .default false
        (member.form.name.toList ++ (member.fallbackText ++ rest)) ∧
      propertyTail sub .objectExpression false false .plain (.identifier member.form.name) false parser =
        (operandAt sub .objectExpression .value >>= fun value =>
          pure (.property (.identifier member.form.name) value .plain false false false)) between := by
  have htext : member.tail ++ rest =
      ':' :: ([' '] ++ (member.form.name.toList ++ (member.fallbackText ++ rest))) := by
    simp [NameMember.tail, ht]
  rw [htext] at h
  have hs := h.shows_mark .colon (by decide)
  have hparen : isAt .openParen parser = .ok false parser := run_isAt_of_shows hs .openParen
  obtain ⟨p₁, h₁, m₁, f₁⟩ := leadsTo_accept hs
  refine ⟨p₁, m₁, f₁.pass (LexerMode.skips_space rfl), ?_⟩
  simp only [propertyTail, run_bind, hparen, h₁, Bool.false_eq_true, if_true, if_false]

/-- The rest of a member, if the name is read as such also the second time. -/
theorem leadsTo_memberTail (hp : member.IsPlain) (hn : member.IsSteady) (hr : EndsItem rest)
    (h : parser.lexer.Facing .default true (member.tail ++ rest)) (room : Nat)
    (hb : 1 < parser.budget) (hd : parser.context.length + 2 < parser.options.maxDepth) :
    LeadsTo (propertyTail (goal arrowAhead (room + 2)) .objectExpression false false .plain
      (.identifier member.form.name) false) parser member.node true rest := by
  by_cases ht : member.form.isTwice = true
  · obtain ⟨p₁, m₁, f₁, h₁⟩ := exists_memberValue ht h (goal arrowAhead (room + 2))
    obtain ⟨p₂, h₂, m₂, f₂⟩ := leadsTo_memberValue hp (hn ht) hr f₁ room (by rw [m₁.budget]; exact hb)
      (by rw [m₁.context, m₁.options]; exact hd)
    refine ⟨p₂, ?_, m₁.trans m₂, f₂⟩
    rw [h₁, run_bind, h₂, NameMember.node, ht]
    rfl
  · have hfallback : parser.lexer.Facing .default true (member.fallbackText ++ rest) := by
      simpa [NameMember.tail, ht] using h
    exact leadsTo_shorthandTail hp (by simpa using ht) hr hfallback (room + 1) (Nat.lt_of_succ_lt hb)
      (by omega)

/-- If the second time it is taken for the start of a function, the member is not read. -/
theorem fails_memberTail (hp : member.IsPlain) (hn : ¬member.IsSteady) (hr : EndsItem rest)
    (h : parser.lexer.Facing .default true (member.tail ++ rest)) (room : Nat) :
    Fails (propertyTail (goal arrowAhead (room + 1)) .objectExpression false false .plain
      (.identifier member.form.name) false) parser := by
  obtain ⟨ht, hsteady⟩ := Classical.not_imp.mp hn
  have hmisread : Misread [] member.form.name.toList := by
    by_contra hm
    exact hsteady ⟨hp.name, hm⟩
  obtain ⟨p₁, m₁, f₁, h₁⟩ := exists_memberValue ht h (goal arrowAhead (room + 1))
  have hvalue : Fails (operandAt (goal arrowAhead (room + 1)) .objectExpression .value) p₁ :=
    fails_misreadOperand hmisread hp.name.isName (member.endsMemberName_fallbackText hr) f₁ rfl room
  rw [Fails, h₁]
  exact hvalue.bind _

/-- The name of a member is its key. What stands behind it is still to come. -/
theorem exists_memberTail (hp : member.IsPlain) (hr : EndsItem rest)
    (h : parser.lexer.Facing .default afterOperand (member.text ++ rest)) (room : Nat)
    (hb : 0 < parser.budget) (hd : parser.context.length < parser.options.maxDepth) :
    ∃ between, parser.Moved between ∧ between.lexer.Facing .default true (member.tail ++ rest) ∧
      objectMember (goal arrowAhead (room + 1)) .objectExpression parser =
        propertyTail (goal arrowAhead (room + 1)) .objectExpression false false .plain
          (.identifier member.form.name) false between := by
  let inner : EmptyMethod := ⟨false, false, .method, .named member.form.name⟩
  have hends := member.endsMemberName_tail hr
  have h' : parser.lexer.Facing .default afterOperand
      (memberText inner.modifiers inner.key ++ (member.tail ++ rest)) := by
    rw [NameMember.text, List.append_assoc] at h
    exact h
  exact exists_propertyTail h' .nil hp.name.isName (MemberKey.stands_of_isPlainName hp.name hends) room
    hb hd

section Objects

variable {members : List NameMember} {comma : Bool}

/-- A step for a member of an object, as the list of members takes it. -/
def memberStep (room : Nat) : ParserM Node :=
  within (.filling .objectExpression .properties) (objectMember (goal arrowAhead room) .objectExpression)

theorem run_isAt_of_member {other : TokenKind} (hp : member.IsPlain) (hr : EndsItem rest)
    (h : parser.lexer.Facing .default afterOperand (member.text ++ rest))
    (ho : other.startsMember = false) : isAt other parser = .ok false parser := by
  rw [NameMember.text, List.append_assoc] at h
  exact run_isAt_of_startsMember
    (MemberKey.startsMember_of_isName hp.name.isName (member.endsMemberName_tail hr).atBoundary) h ho

theorem readsItem_member (hp : member.IsPlain) (hn : member.IsSteady) (room : Nat)
    (hb : 1 < parser.budget) (hd : parser.context.length + 3 < parser.options.maxDepth) :
    ReadsItem (memberStep (room + 2)) parser member.text member.node := by
  intro between afterOperand rest hm hr hf
  refine ⟨run_isAt_of_member hp hr hf rfl, true, ?_⟩
  let inside : Parser := { between with context := .filling .objectExpression .properties :: between.context }
  have hdepth : inside.context.length + 2 < inside.options.maxDepth := by
    change between.context.length + 1 + 2 < between.options.maxDepth
    rw [hm.context, hm.options]
    omega
  have hbudget : 1 < inside.budget := by
    change 1 < between.budget
    rw [hm.budget]
    exact hb
  have hf' : inside.lexer.Facing .default afterOperand (member.text ++ rest) := hf
  obtain ⟨p₁, m₁, f₁, h₁⟩ := exists_memberTail hp hr hf' (room + 1) (Nat.lt_of_succ_lt hbudget) (by omega)
  obtain ⟨p₂, h₂, m₂, f₂⟩ := leadsTo_memberTail hp hn hr f₁ room (by rw [m₁.budget]; exact hbudget)
    (by rw [m₁.context, m₁.options]; exact hdepth)
  exact Leads.within ⟨p₂, h₁.trans h₂, m₁.trans m₂, f₂⟩ (fun _ _ hf => hf)
    (by rw [hm.context, hm.options]; omega)

theorem failsItem_member (hp : member.IsPlain) (hn : ¬member.IsSteady) (room : Nat)
    (hb : 0 < parser.budget) (hd : parser.context.length + 1 < parser.options.maxDepth) :
    FailsItem (memberStep (room + 1)) parser member.text := by
  intro between afterOperand rest hm hr hf
  refine ⟨run_isAt_of_member hp hr hf rfl, ?_⟩
  let inside : Parser := { between with context := .filling .objectExpression .properties :: between.context }
  have hf' : inside.lexer.Facing .default afterOperand (member.text ++ rest) := hf
  obtain ⟨p₁, m₁, f₁, h₁⟩ := exists_memberTail hp hr hf' room
    (by change 0 < between.budget; rw [hm.budget]; exact hb)
    (by
      change between.context.length + 1 < between.options.maxDepth
      rw [hm.context, hm.options]
      exact hd)
  have hfails : Fails (objectMember (goal arrowAhead (room + 1)) .objectExpression) inside := by
    rw [Fails, h₁]
    exact fails_memberTail hp hn hr f₁ room
  exact Fails.within hfails

/-- How an object of names is written. -/
def namesText (members : List NameMember) (comma : Bool) : List Char :=
  '\x7b' :: (listText NameMember.text comma members ++ ['\x7d'])

/-- An object of names, each read as such, up to what follows it. -/
theorem leadsTo_nameObject (hp : ∀ member ∈ members, member.IsPlain)
    (hn : ∀ member ∈ members, member.IsSteady) (hc : parser.context.expectsPattern = false)
    (h : parser.lexer.Facing .default afterOperand (namesText members comma ++ rest)) (room : Nat)
    (hr : members.length + 1 < parser.budget)
    (hd : parser.context.length + 3 < parser.options.maxDepth) :
    LeadsTo (object (goal arrowAhead (room + 2))) parser
      (.object .expression (members.map NameMember.node)) false rest := by
  have h' : parser.lexer.Facing .default afterOperand
      ('\x7b' :: (listText NameMember.text comma members ++ '\x7d' :: rest)) := by
    simpa [namesText] using h
  obtain ⟨p₁, h₁, m₁, f₁⟩ := leadsTo_nextToken (h'.shows_brace .openBrace (by decide))
  have hlist : ∀ member ∈ members, ReadsItem (memberStep (room + 2)) p₁ member.text member.node :=
    fun member hm => readsItem_member (hp member hm) (hn member hm) room (by rw [m₁.budget]; omega)
      (by rw [m₁.context, m₁.options]; exact hd)
  obtain ⟨_, p₂, h₂, m₂, f₂⟩ := leadsTo_list hlist f₁
    (show members.length < p₁.budget by rw [m₁.budget]; omega)
  obtain ⟨p₃, h₃, m₃, f₃⟩ := leadsTo_require (f₂.shows_brace .closeBrace (by decide))
  refine ⟨p₃, ?_, (m₁.trans m₂).trans m₃, f₃⟩
  rw [memberStep] at h₂
  simp only [object, objectKind, closedList, run_bind, run_get, hc, Bool.false_eq_true, if_false, h₁,
    run_budget, h₂, h₃, run_pure]

/-- An object of names, of which one is misread, is not read. -/
theorem fails_nameObject (hp : ∀ member ∈ members, member.IsPlain)
    (hn : ∃ member ∈ members, ¬member.IsSteady) (hc : parser.context.expectsPattern = false)
    (h : parser.lexer.Facing .default afterOperand (namesText members comma ++ rest)) (room : Nat)
    (hb : 1 < parser.budget) (hd : parser.context.length + 3 < parser.options.maxDepth) :
    Fails (object (goal arrowAhead (room + 2))) parser := by
  have h' : parser.lexer.Facing .default afterOperand
      ('\x7b' :: (listText NameMember.text comma members ++ '\x7d' :: rest)) := by
    simpa [namesText] using h
  obtain ⟨p₁, h₁, m₁, f₁⟩ := leadsTo_nextToken (h'.shows_brace .openBrace (by decide))
  have hb₁ : 1 < p₁.budget := by rw [m₁.budget]; exact hb
  have hd₁ : p₁.context.length + 3 < p₁.options.maxDepth := by rw [m₁.context, m₁.options]; exact hd
  have hlist : Fails (commaList .closeBrace (memberStep (room + 2)) p₁.budget) p₁ := fails_list
    (fun member hm hsteady => readsItem_member (hp member hm) hsteady room hb₁ hd₁)
    (fun member hm hsteady => failsItem_member (hp member hm) hsteady (room + 1) (Nat.lt_of_succ_lt hb₁)
      (by omega)) hn f₁
  obtain ⟨failure, after, hx⟩ := hlist
  refine ⟨failure, after, ?_⟩
  rw [memberStep] at hx
  simp only [object, objectKind, closedList, run_bind, run_get, hc, Bool.false_eq_true, if_false, h₁,
    run_budget, hx]

end Objects

end ParserM

end ScriptTree
