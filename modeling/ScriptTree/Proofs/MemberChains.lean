import ScriptTree.Proofs.FormulaReading
import ScriptTree.Proofs.MarkedNames
import ScriptTree.Tree.Walk

/-!
Chains of accesses and calls, of any length: what is read leans to the left.

Each link of a chain makes the operand before it longer, and is gone through with the same constructs
around it as the first. So neither the limit on them nor the length of the chain matters.
-/

namespace ScriptTree

open ParserM

/-- One link of a chain of accesses and calls. -/
inductive ChainLink where
  /-- An access by a name, which may be any word. -/
  | access (name : String)
  /-- An access by a key that is a name. -/
  | index (name : String)
  /-- A call with names as arguments. -/
  | call (names : List String)

namespace ChainLink

/-- How a link is written. -/
def text : ChainLink → List Char
  | access name => '.' :: name.toList
  | index name => '[' :: (name.toList ++ [']'])
  | call names => '(' :: (commaNames names ++ [')'])

/-- The operand that a link makes of the one before it. -/
def node (operand : Node) : ChainLink → Node
  | access name => .member operand (.identifier name) false
  | index name => .member operand (.identifier name) true
  | call names => .call .plain operand (names.map .identifier)

/-- The names that a link reads as operands. -/
def operands : ChainLink → List String
  | access _ => []
  | index name => [name]
  | call names => names

/-- Behind a point any name may stand, elsewhere those that are no keywords. -/
structure IsPlain (link : ChainLink) : Prop where
  accessed : ∀ name, link = access name → IsName name.toList
  operands : ∀ name ∈ link.operands, IsPlainName name.toList

/-- All names that are read as operands are steady ones. -/
def IsSteady (link : ChainLink) : Prop := ∀ name ∈ link.operands, IsSteadyName name.toList

/-- The kind of the token that a link starts with. -/
def kind : ChainLink → TokenKind
  | access _ => .dot
  | index _ => .openBracket
  | call _ => .openParen

theorem text_index (name : String) (rest : List Char) :
    (index name).text ++ rest = '[' :: (name.toList ++ ']' :: rest) := by
  simp [text]

theorem text_call (names : List String) (rest : List Char) :
    (call names).text ++ rest = '(' :: (commaNames names ++ ')' :: rest) := by
  simp [text]

theorem endsMarked_text (link : ChainLink) (rest : List Char) : EndsMarked (link.text ++ rest) := by
  cases link with
  | access | index | call => exact .extending (by decide)

/-- What a link makes of an operand can be called again. -/
theorem isCallable_node (link : ChainLink) (operand : Node) : (link.node operand).isCallable = true := by
  cases link <;> rfl

end ChainLink

/-- How a chain is written from behind its first name on. -/
def linksText (links : List ChainLink) : List Char := links.flatMap ChainLink.text

/-- A chain as a tree: each link takes what stands before it. -/
def chainNode (first : Node) (links : List ChainLink) : Node := links.foldl ChainLink.node first

/-- The operands on the way to a chain, in the order in which they are made: what it starts with, and
what each link makes of the one before. The last one is the chain. -/
def chainNodes (first : Node) : List ChainLink → List Node
  | [] => [first]
  | link :: links => first :: chainNodes (link.node first) links

theorem endsMarked_linksText (links : List ChainLink) : EndsMarked (linksText links) := by
  cases links with
  | nil => exact .nil
  | cons link links => exact link.endsMarked_text (linksText links)

/-- What can be called is no statement. -/
theorem isStatement_of_isCallable {operand : Node} (h : operand.isCallable = true) :
    operand.isStatement = false := by
  cases operand with
  | identifier | member | sequence | arrowFunction => rfl
  | function role | call role => cases role <;> first | rfl | cases h
  | _ => cases h

/-- So it is not finished anywhere. -/
theorem isComplete_of_isCallable {operand : Node} (h : operand.isCallable = true) (context : Context) :
    context.isComplete operand = false := by
  have hstatement := isStatement_of_isCallable h
  cases operand with
  | classDeclaration => cases h
  | _ => exact hstatement

theorem isCallable_chainNode {first : Node} (h : first.isCallable = true) (links : List ChainLink) :
    (chainNode first links).isCallable = true := by
  induction links generalizing first with
  | nil => exact h
  | cons link links ih => exact ih (link.isCallable_node first)

theorem length_le_commaNames (names : List String) : names.length ≤ (commaNames names).length + 1 := by
  induction names with
  | nil => exact Nat.zero_le _
  | cons name names ih =>
    cases names with
    | nil => exact Nat.le_add_left 1 _
    | cons next names =>
      rw [commaNames_cons_cons, List.length_append]
      simp only [List.length_cons] at ih ⊢
      omega

namespace ParserM

variable {parser : Parser} {afterOperand : Bool} {rest : List Char} {name : String}

/-- The name behind a point is read as a name, also where arrows may stand. -/
theorem leadsTo_memberAccess (owner : Node) (hn : IsName name.toList) (hb : atBoundary rest = true)
    (h : parser.lexer.Shows .dot none ['.'] afterOperand (name.toList ++ rest)) :
    LeadsTo (memberAccess owner) parser (.member owner (.identifier name) false) true rest := by
  -- behind a point the text is read in the mode for names, where no word is a keyword
  have hshows := (h.next .names).shows (begins_anyName hn hb afterOperand) rfl
    (isUpdateSpelling_name hn)
  obtain ⟨word, hw, hk, hv, -⟩ := hshows.token
  rw [String.ofList_toList] at hv
  let between : Parser := { parser with lexer := parser.lexer.next .names }
  have hbetween : between.lexer.Shows .identifierName none name.toList true rest := hshows
  obtain ⟨after, hx, hm, hf⟩ := leadsTo_nextToken hbetween
  refine ⟨after, ?_, Parser.Moved.trans ⟨_, _, rfl⟩ hm, hf⟩
  simp only [memberAccess, nextTokenIn, run_bind, run_modifyLexer, run_current, hw, hk, if_true, hx, hv,
    run_pure, between]

/-- In front of a link, its first token is the current one. -/
theorem exists_linkWord {link : ChainLink} (hp : link.IsPlain)
    (h : parser.lexer.Facing .default true (link.text ++ rest)) :
    ∃ word, parser.lexer.current = some word ∧ word.kind = link.kind := by
  cases link with
  | access name =>
    have hface : parser.lexer.Facing .default true (['.'] ++ (name.toList ++ rest)) := h
    obtain ⟨word, hw, hk, -⟩ := (hface.shows (begins_memberDot (hp.accessed name rfl) rest) rfl rfl).token
    exact ⟨word, hw, hk⟩
  | index name =>
    rw [ChainLink.text_index] at h
    obtain ⟨word, hw, hk, -⟩ := (h.shows_mark .openBracket (by decide)).token
    exact ⟨word, hw, hk⟩
  | call names =>
    rw [ChainLink.text_call] at h
    obtain ⟨word, hw, hk, -⟩ := (h.shows_mark .openParen (by decide)).token
    exact ⟨word, hw, hk⟩

section Keys

variable (owner : Node)
  (h : parser.lexer.Facing .default true ('[' :: (name.toList ++ ']' :: rest))) (room : Nat)
include h

theorem leadsTo_computedAccess (hn : IsSteadyName name.toList) (hb : 0 < parser.budget)
    (hd : parser.context.length < parser.options.maxDepth) :
    LeadsTo (computedAccess (goal arrowAhead (room + 1)) owner) parser
      (.member owner (.identifier name) true) true rest := by
  have hclosing : (']', TokenKind.closeBracket) ∈ marks := by decide
  obtain ⟨p₁, h₁, m₁, f₁⟩ := leadsTo_nextToken (h.shows_mark .openBracket (by decide))
  obtain ⟨p₂, h₂, m₂, f₂⟩ : LeadsTo (operandAt (goal arrowAhead (room + 1)) .memberExpression .computed)
      p₁ (.identifier name) true (']' :: rest) :=
    leadsTo_markedName hn (.closing (by decide)) f₁ rfl (halts_mark hclosing rfl) room
      (by rw [m₁.budget]; exact hb) (by rw [m₁.context, m₁.options]; exact hd)
  obtain ⟨p₃, h₃, m₃, f₃⟩ := leadsTo_require (f₂.shows_mark .closeBracket hclosing)
  refine ⟨p₃, ?_, (m₁.trans m₂).trans m₃, f₃⟩
  simp only [computedAccess, run_bind, h₁, h₂, h₃, run_pure]

theorem fails_computedAccess (hn : IsPlainName name.toList) (hs : ¬IsSteadyName name.toList) :
    Fails (computedAccess (goal arrowAhead (room + 1)) owner) parser := by
  obtain ⟨p₁, h₁, -, f₁⟩ := leadsTo_nextToken (h.shows_mark .openBracket (by decide))
  obtain ⟨failure, after, h₂⟩ : Fails (operandAt (goal arrowAhead (room + 1)) .memberExpression .computed)
      p₁ := fails_markedName (hn.misread hs) hn.isName (by decide) f₁ rfl room
  refine ⟨failure, after, ?_⟩
  simp only [computedAccess, run_bind, h₁, h₂]

end Keys

section Calls

variable {names : List String} (callee : Node)
  (h : parser.lexer.Facing .default true ('(' :: (commaNames names ++ ')' :: rest))) (room : Nat)
  (hd : parser.context.length < parser.options.maxDepth)
include h hd

theorem leadsTo_call (hs : ∀ name ∈ names, IsSteadyName name.toList) (hb : names.length < parser.budget) :
    LeadsTo (call (goal arrowAhead (room + 1)) callee) parser
      (.call .plain callee (names.map .identifier)) true rest := by
  have hf : (Frame.filling .callExpression .arguments).isEnclosing = true := rfl
  obtain ⟨p₁, h₁, m₁, f₁⟩ := leadsTo_require (h.shows_mark .openParen (by decide))
  obtain ⟨p₂, h₂, m₂, f₂⟩ := leadsTo_closedNames hf rfl hs f₁ room (by rw [m₁.budget]; exact hb)
    (by rw [m₁.context, m₁.options]; exact hd)
  refine ⟨p₂, ?_, m₁.trans m₂, f₂⟩
  have h₂' : closedList .closeParen (operandAt (goal arrowAhead (room + 1)) .callExpression .arguments)
      p₁ = .ok (names.map .identifier) p₂ := h₂
  simp only [call, argumentList, run_bind, h₁, h₂', run_pure]

theorem fails_call (hp : ∀ name ∈ names, IsPlainName name.toList)
    (hs : ∃ name ∈ names, ¬IsSteadyName name.toList) (hb : 0 < parser.budget) :
    Fails (call (goal arrowAhead (room + 1)) callee) parser := by
  have hf : (Frame.filling .callExpression .arguments).isEnclosing = true := rfl
  obtain ⟨p₁, h₁, m₁, f₁⟩ := leadsTo_require (h.shows_mark .openParen (by decide))
  obtain ⟨failure, after, h₂⟩ := fails_commaNames hf rfl hp hs f₁ room p₁.budget
    (by rw [m₁.budget]; exact hb) (by rw [m₁.context, m₁.options]; exact hd)
  have h₂' : commaList .closeParen (operandAt (goal arrowAhead (room + 1)) .callExpression .arguments)
      p₁.budget p₁ = .error failure after := h₂
  refine ⟨failure, after, ?_⟩
  simp only [call, argumentList, closedList, run_bind, run_budget, h₁, h₂']

end Calls

section Links

variable {link : ChainLink} (hp : link.IsPlain) (operand : Node)
  (h : parser.lexer.Facing .default true (link.text ++ rest)) (room : Nat)
  (hb : link.text.length < parser.budget) (hd : parser.context.length < parser.options.maxDepth)
include hp h hb hd

/-- A link whose names are steady makes the operand before it longer. -/
theorem leadsTo_link (hs : link.IsSteady) (he : EndsMarked rest) :
    LeadsTo (extension (goal arrowAhead (room + 1)) link.kind operand) parser (link.node operand) true
      rest := by
  cases link with
  | access name =>
    have hn := hp.accessed name rfl
    have hface : parser.lexer.Facing .default true (['.'] ++ (name.toList ++ rest)) := h
    exact leadsTo_memberAccess operand hn he.atBoundary (hface.shows (begins_memberDot hn rest) rfl rfl)
  | index name =>
    rw [ChainLink.text_index] at h
    exact leadsTo_computedAccess operand h room (hs name List.mem_cons_self) (Nat.zero_lt_of_lt hb) hd
  | call names =>
    rw [ChainLink.text_call] at h
    -- a list takes a round for each name, and the budget has one for each character of the link
    have hcount := length_le_commaNames names
    simp only [ChainLink.text, List.length_cons, List.length_append, List.length_nil] at hb
    exact leadsTo_call operand h room hd hs (by omega)

/-- A link with a misread name is not read. -/
theorem fails_link (hs : ¬link.IsSteady) :
    Fails (extension (goal arrowAhead (room + 1)) link.kind operand) parser := by
  obtain ⟨bad, hbad, hno⟩ : ∃ bad ∈ link.operands, ¬IsSteadyName bad.toList := by
    simpa [ChainLink.IsSteady] using hs
  cases link with
  | access name => cases hbad
  | index name =>
    obtain rfl := List.mem_singleton.mp hbad
    rw [ChainLink.text_index] at h
    exact fails_computedAccess operand h room (hp.operands bad hbad) hno
  | call names =>
    rw [ChainLink.text_call] at h
    exact fails_call operand h room hd hp.operands ⟨bad, hbad, hno⟩ (Nat.zero_lt_of_lt hb)

end Links

section Chains

variable {operand : Node} {outer : Context} (rounds : Nat)
  (hc : parser.context = .filling .expressionStatement .expression :: outer)
  (hcall : operand.isCallable = true)
include hc hcall

/-- In front of a link, the operand before it is handed over to the rule for the link. -/
theorem run_extend_link {link : ChainLink} (hp : link.IsPlain)
    (h : parser.lexer.Facing .default true (link.text ++ rest)) (room : Nat)
    (hd : parser.context.length < parser.options.maxDepth) :
    extend arrowAhead (goal arrowAhead (room + 1)) operand (rounds + 1) parser =
      (within (.extending operand.kind) (extension (goal arrowAhead (room + 1)) link.kind operand) >>=
        fun longer => extend arrowAhead (goal arrowAhead (room + 1)) longer rounds) parser := by
  obtain ⟨word, hw, hk⟩ := exists_linkWord hp h
  have hadmits : Context.admits parser.context operand word = true := by
    rw [hc]
    cases link with
    | access => exact admits_access (Or.inl hk)
    | index => exact admits_access (Or.inr hk)
    | call => exact admits_call (by decide) hcall hk
  rw [← hk]
  exact run_extend_step rounds hw (isComplete_of_isCallable hcall _) hadmits hd

/-- One step of a chain: a link is taken, and the rest of the chain is still to come. -/
theorem extend_link {link : ChainLink} (hp : link.IsPlain) (hs : link.IsSteady) (he : EndsMarked rest)
    (h : parser.lexer.Facing .default true (link.text ++ rest)) (room : Nat)
    (hb : link.text.length < parser.budget) (hd : parser.context.length + 1 < parser.options.maxDepth) :
    ∃ after, extend arrowAhead (goal arrowAhead (room + 1)) operand (rounds + 1) parser =
        extend arrowAhead (goal arrowAhead (room + 1)) (link.node operand) rounds after ∧
      parser.Moved after ∧ after.lexer.Facing .default true rest := by
  let inside : Parser := { parser with context := .extending operand.kind :: parser.context }
  have hface : inside.lexer.Facing .default true (link.text ++ rest) := h
  have hroom : parser.context.length < parser.options.maxDepth := Nat.lt_of_succ_lt hd
  have hlink := leadsTo_link hp operand hface room hb hd hs he
  obtain ⟨after, hx, hm, hf⟩ := Leads.within hlink (fun _ _ hf => hf) hroom
  refine ⟨after, ?_, hm, hf⟩
  rw [run_extend_link rounds hc hcall hp h room hroom, run_bind, hx]

/-- A whole chain, by induction on its links. -/
theorem extend_links {links : List ChainLink} (hp : ∀ link ∈ links, link.IsPlain)
    (hs : ∀ link ∈ links, link.IsSteady)
    (h : parser.lexer.Facing .default true (linksText links)) (room : Nat) (hr : links.length < rounds)
    (hb : (linksText links).length < parser.budget)
    (hd : parser.context.length + 1 < parser.options.maxDepth) :
    LeadsTo (extend arrowAhead (goal arrowAhead (room + 1)) operand rounds) parser
      (chainNode operand links) true [] := by
  induction links generalizing parser operand rounds with
  | nil =>
    have hstops : extend arrowAhead (goal arrowAhead (room + 1)) operand rounds parser =
        .ok operand parser := extend_stops (current_none_of_nil h) (Nat.zero_lt_of_lt hr)
    exact ⟨parser, hstops, .refl parser, h⟩
  | cons link links ih =>
    obtain ⟨rounds, rfl⟩ := Nat.exists_eq_succ_of_ne_zero (Nat.ne_zero_of_lt hr)
    have htext : linksText (link :: links) = link.text ++ linksText links := List.flatMap_cons
    rw [htext] at h hb
    rw [List.length_append] at hb
    obtain ⟨p₁, h₁, m₁, f₁⟩ := extend_link rounds hc hcall (hp link List.mem_cons_self)
      (hs link List.mem_cons_self) (endsMarked_linksText links) h room (by omega) hd
    -- the construct around the link has been left again, so the other links are met at the same depth
    have hrest := ih rounds (m₁.context.trans hc) (link.isCallable_node operand)
      (fun other hin => hp other (List.mem_cons_of_mem _ hin))
      (fun other hin => hs other (List.mem_cons_of_mem _ hin)) f₁ (Nat.lt_of_succ_lt_succ hr)
      (by rw [m₁.budget]; omega) (by rw [m₁.context, m₁.options]; exact hd)
    obtain ⟨p₂, h₂, m₂, f₂⟩ := hrest
    exact ⟨p₂, h₁.trans h₂, m₁.trans m₂, f₂⟩

/-- A chain with a misread name is not read, by induction on the links before it. -/
theorem fails_links {links : List ChainLink} (hp : ∀ link ∈ links, link.IsPlain)
    (hs : ∃ link ∈ links, ¬link.IsSteady)
    (h : parser.lexer.Facing .default true (linksText links)) (room : Nat)
    (hb : (linksText links).length < parser.budget)
    (hd : parser.context.length + 1 < parser.options.maxDepth) :
    Fails (extend arrowAhead (goal arrowAhead (room + 1)) operand rounds) parser := by
  induction links generalizing parser operand rounds with
  | nil =>
    obtain ⟨link, hin, -⟩ := hs
    cases hin
  | cons link links ih =>
    cases rounds with
    | zero => exact ⟨_, _, rfl⟩
    | succ rounds =>
      have hlink := hp link List.mem_cons_self
      have htext : linksText (link :: links) = link.text ++ linksText links := List.flatMap_cons
      rw [htext] at h hb
      rw [List.length_append] at hb
      have hroom : parser.context.length < parser.options.maxDepth := Nat.lt_of_succ_lt hd
      by_cases hsteady : link.IsSteady
      · have hlater : ∃ other ∈ links, ¬other.IsSteady :=
          ((List.exists_mem_cons_iff _ link links).mp hs).resolve_left (not_not_intro hsteady)
        -- this link is read, and the misread name stands in a later one
        obtain ⟨p₁, h₁, m₁, f₁⟩ := extend_link rounds hc hcall hlink hsteady
          (endsMarked_linksText links) h room (by omega) hd
        have hrest := ih rounds (m₁.context.trans hc) (link.isCallable_node operand)
          (fun other hin => hp other (List.mem_cons_of_mem _ hin)) hlater f₁
          (by rw [m₁.budget]; omega) (by rw [m₁.context, m₁.options]; exact hd)
        rw [Fails, h₁]
        exact hrest
      · let inside : Parser := { parser with context := .extending operand.kind :: parser.context }
        have hface : inside.lexer.Facing .default true (link.text ++ linksText links) := h
        have hbudget : link.text.length < inside.budget := by
          change link.text.length < parser.budget
          omega
        have hfails := fails_link hlink operand hface room hbudget hd hsteady
        have hstep := run_extend_link rounds hc hcall hlink h room hroom
        exact ((Fails.within hfails).bind _).of_eq hstep

end Chains

end ParserM

/-- How a chain is written. -/
def chainText (first : String) (links : List ChainLink) : List Char := first.toList ++ linksText links

theorem length_le_linksText (links : List ChainLink) : links.length ≤ (linksText links).length := by
  induction links with
  | nil => exact Nat.zero_le _
  | cons link links ih =>
    have hlink : 1 ≤ link.text.length := by
      cases link with
      | access | index | call => exact Nat.succ_pos _
    have htext : linksText (link :: links) = link.text ++ linksText links := List.flatMap_cons
    rw [htext, List.length_append, List.length_cons]
    omega

namespace ParserM

variable {parser : Parser} {afterOperand : Bool} {first : String} {links : List ChainLink}

/-- Behind its first name, which is steady, a chain is an operand that is made longer. -/
theorem exists_chainStart (hfirst : IsSteadyName first.toList)
    (h : parser.lexer.Facing .default afterOperand (chainText first links)) (room : Nat) :
    ∃ after, operand arrowAhead (goal arrowAhead (room + 1)) (inExpression parser) =
        extend arrowAhead (goal arrowAhead (room + 1)) (.identifier first) parser.budget after ∧
      (inExpression parser).Moved after ∧ after.lexer.Facing .default true (linksText links) := by
  have hshows : (inExpression parser).lexer.Shows .identifierName none first.toList true
      (linksText links) :=
    Lexer.Facing.shows h ((endsMarked_linksText links).begins_steadyName hfirst afterOperand) rfl
      (isUpdateSpelling_name hfirst.plain.isName)
  have hfresh : LeadsTo (fresh arrowAhead (goal arrowAhead (room + 1))) (inExpression parser)
      (.identifier first) true (linksText links) := leadsTo_fresh_identifier hshows
  exact operand_of_fresh rfl hfresh

section Whole

variable (hp : ∀ link ∈ links, link.IsPlain) (hfirst : IsSteadyName first.toList)
  (h : parser.lexer.Facing .default afterOperand (chainText first links))
  (hb : (chainText first links).length < parser.budget)
  (hd : parser.context.length + 2 < parser.options.maxDepth)
include hp hfirst h hb hd

theorem leadsTo_chain (hs : ∀ link ∈ links, link.IsSteady) (room : Nat) :
    LeadsTo (operandAt (goal arrowAhead (room + 2)) .expressionStatement .expression) parser
      (chainNode (.identifier first) links) true [] := by
  obtain ⟨p₁, h₁, m₁, f₁⟩ := exists_chainStart hfirst h room
  have hbudget : p₁.budget = parser.budget := m₁.budget
  have hdepth : p₁.context.length + 1 < p₁.options.maxDepth := by
    rw [m₁.context, m₁.options]
    exact hd
  rw [chainText, List.length_append] at hb
  -- no link is empty, so the budget has a round for each
  have hlinks := length_le_linksText links
  have hcall : (Node.identifier first).isCallable = true := rfl
  obtain ⟨p₂, h₂, m₂, f₂⟩ := extend_links parser.budget m₁.context hcall hp hs f₁ room (by omega)
    (by omega) hdepth
  have hoperand : LeadsTo (goal arrowAhead (room + 2) .operand) (inExpression parser)
      (chainNode (.identifier first) links) true [] := ⟨p₂, h₁.trans h₂, m₁.trans m₂, f₂⟩
  exact Leads.within hoperand (fun _ _ hf => hf) (by omega)

theorem fails_chain (hs : ∃ link ∈ links, ¬link.IsSteady) (room : Nat) :
    Fails (operandAt (goal arrowAhead (room + 2)) .expressionStatement .expression) parser := by
  obtain ⟨p₁, h₁, m₁, f₁⟩ := exists_chainStart hfirst h room
  have hbudget : p₁.budget = parser.budget := m₁.budget
  have hdepth : p₁.context.length + 1 < p₁.options.maxDepth := by
    rw [m₁.context, m₁.options]
    exact hd
  rw [chainText, List.length_append] at hb
  have hcall : (Node.identifier first).isCallable = true := rfl
  obtain ⟨failure, after, hx⟩ :=
    fails_links parser.budget m₁.context hcall hp hs f₁ room (by omega) hdepth
  have hoperand : Fails (goal arrowAhead (room + 2) .operand) (inExpression parser) :=
    ⟨failure, after, h₁.trans hx⟩
  exact Fails.within hoperand

end Whole

end ParserM

section Programs

variable {first : String} {links : List ChainLink}

/-- A chain that starts with a steady name is read as one statement if its other names are steady, and
else not at all. -/
theorem ofSource_chain (hp : ∀ link ∈ links, link.IsPlain) (hfirst : IsSteadyName first.toList) :
    Node.ofSource (String.ofList (chainText first links)) =
        .ok (.program [.expressionStatement (chainNode (.identifier first) links)]) ↔
      ∀ link ∈ links, link.IsSteady := by
  have htext : (String.ofList (chainText first links)).toList = chainText first links :=
    String.toList_ofList
  let start : Parser := (Parser.started (String.ofList (chainText first links)) {}).inStatement
  have hface : start.lexer.Facing .default false (chainText first links) :=
    Parser.facing_inStatement htext {}
  have hbudget : (chainText first links).length < start.budget := by
    have hlength : start.budget = 2 * (String.ofList (chainText first links)).toList.length + 4 := rfl
    rw [hlength, htext]
    omega
  have hdepth : start.context.length + 2 < start.options.maxDepth := by
    change 1 + 2 < 200
    omega
  have hshows : start.lexer.Shows .identifierName none first.toList true (linksText links) :=
    Lexer.Facing.shows hface ((endsMarked_linksText links).begins_steadyName hfirst false) rfl
      (isUpdateSpelling_name hfirst.plain.isName)
  obtain ⟨word, hw, hk, -⟩ := hshows.token
  have hstatement : statement (goal arrowAhead 199) start =
      expressionStatement (goal arrowAhead 199) start := run_statement_expression hw (Or.inl hk)
  constructor
  · intro hparse
    by_contra hs
    simp only [not_forall] at hs
    obtain ⟨link, hin, hno⟩ := hs
    have hfails := fails_chain hp hfirst hface hbudget hdepth ⟨link, hin, hno⟩ 197
    have hfails' : Fails (expressionStatement (goal arrowAhead 199)) start := hfails.bind _
    exact ofSourceWith_ne_of_fails rfl hw (hfails'.of_eq hstatement) _ hparse
  · intro hs
    have hread := leadsTo_chain hp hfirst hface hbudget hdepth hs 197
    have hnode : (chainNode (.identifier first) links).isStatement = false :=
      isStatement_of_isCallable (isCallable_chainNode rfl links)
    exact ofSourceWith_of_oneStatement rfl hw
      (leadsTo_lastExpression hw (Or.inl hk) hnode hread)

theorem chainNodes_ne_nil (operand : Node) (links : List ChainLink) : chainNodes operand links ≠ [] := by
  cases links <;> exact List.cons_ne_nil _ _

/-- Below what links make of an access or a call, the inner links are met from the last one on, and then
those of the operand they started with. -/
theorem memberChain_chainNode {operand : Node} (h : operand.isChainLink = true)
    (links : List ChainLink) : (chainNode operand links).memberChain =
      (chainNodes operand links).dropLast.reverse ++ operand.memberChain := by
  induction links generalizing operand with
  | nil => rfl
  | cons link links ih =>
    have hlink : (link.node operand).isChainLink = true := by cases link <;> rfl
    have hinner : (link.node operand).memberChain = operand :: operand.memberChain := by
      cases link <;> exact if_pos h
    have hdrop : (chainNodes operand (link :: links)).dropLast =
        operand :: (chainNodes (link.node operand) links).dropLast :=
      List.dropLast_cons_of_ne_nil (chainNodes_ne_nil _ _)
    calc (chainNode operand (link :: links)).memberChain
        = (chainNode (link.node operand) links).memberChain := rfl
      _ = (chainNodes (link.node operand) links).dropLast.reverse ++
          (link.node operand).memberChain := ih hlink
      _ = (chainNodes (link.node operand) links).dropLast.reverse ++
          (operand :: operand.memberChain) := by rw [hinner]
      _ = (chainNodes operand (link :: links)).dropLast.reverse ++ operand.memberChain := by
        rw [hdrop, List.reverse_cons, List.append_assoc, List.singleton_append]

/-- The inner links of a chain are the operands between its first name and itself. -/
theorem memberChain_of_identifier (first : String) (links : List ChainLink) :
    (chainNode (.identifier first) links).memberChain =
      (chainNodes (.identifier first) links).tail.dropLast.reverse := by
  cases links with
  | nil => rfl
  | cons link links =>
    have hlink : (link.node (.identifier first)).isChainLink = true := by cases link <;> rfl
    -- the first name is no link, so nothing is met below it
    have hnone : (link.node (.identifier first)).memberChain = [] := by cases link <;> rfl
    calc (chainNode (.identifier first) (link :: links)).memberChain
        = (chainNodes (link.node (.identifier first)) links).dropLast.reverse ++
          (link.node (.identifier first)).memberChain := memberChain_chainNode hlink links
      _ = (chainNodes (.identifier first) (link :: links)).tail.dropLast.reverse := by
        rw [hnone, List.append_nil]
        rfl

/-- A chain of accesses and calls behind a name, of any length, is read as one statement with the tree
that leans to the left, if and only if no name in it that is read as an operand is misread. The inner
links of that tree are its operands on the way, from the outermost on. -/
theorem ofSource_chainText_iff (hfirst : IsPlainName first.toList)
    (hp : ∀ link ∈ links, link.IsPlain) :
    (Node.ofSource (String.ofList (chainText first links)) =
        .ok (.program [.expressionStatement (chainNode (.identifier first) links)]) ↔
      IsSteadyName first.toList ∧ ∀ link ∈ links, link.IsSteady) ∧
    (chainNode (.identifier first) links).memberChain =
      (chainNodes (.identifier first) links).tail.dropLast.reverse := by
  refine ⟨?_, memberChain_of_identifier first links⟩
  by_cases hs : IsSteadyName first.toList
  · rw [ofSource_chain hp hs]
    exact ⟨fun hlinks => ⟨hs, hlinks⟩, fun h => h.2⟩
  · have hno (tree : Node) : Node.ofSource (String.ofList (chainText first links)) ≠
        .ok (.program [.expressionStatement tree]) :=
      ofSourceWith_ne_of_misread String.toList_ofList (hfirst.misread hs) hfirst.isName
        (endsMarked_linksText links) tree
    exact ⟨fun hparse => absurd hparse (hno _), fun h => absurd h.1 hs⟩

/-- A chain of all three kinds of links is read; one behind a misread name is not. -/
theorem ofSource_chainText_for :
    Node.ofSource "a.for[b](c, d)" = .ok (.program [.expressionStatement (.call .plain
        (.member (.member (.identifier "a") (.identifier "for") false) (.identifier "b") true)
        [.identifier "c", .identifier "d"])]) ∧
      Node.ofSource "async\u200cfunction.a" ≠ .ok (.program [.expressionStatement
        (.member (.identifier "async\u200cfunction") (.identifier "a") false)]) := by
  have ha : IsSteadyName "a".toList := IsPlainName.steady_of_any (by decide) (by decide)
  constructor
  · let links : List ChainLink := [.access "for", .index "b", .call ["c", "d"]]
    have hnames : ∀ link ∈ links, ∀ name ∈ link.operands,
        IsPlainName name.toList ∧ name.toList.any isSpace = false := by
      decide
    have hlinks : ∀ link ∈ links, link.IsSteady := by
      intro link hin name hname
      obtain ⟨hplain, hsolid⟩ := hnames link hin name hname
      exact hplain.steady_of_any hsolid
    have hplain : ∀ link ∈ links, link.IsPlain := by
      intro link hin
      refine ⟨?_, fun name hname => (hnames link hin name hname).1⟩
      rintro name rfl
      simp only [links, List.mem_cons, ChainLink.access.injEq, reduceCtorEq, List.not_mem_nil,
        or_false] at hin
      rw [hin]
      decide
    exact (ofSource_chainText_iff ha.plain hplain).1.mpr ⟨ha, hlinks⟩
  · obtain ⟨hplain, hno⟩ := misread_asyncFunction
    have hlink : ∀ link ∈ [ChainLink.access "a"], link.IsPlain := by
      refine List.forall_mem_singleton.mpr ⟨?_, fun _ hin => absurd hin List.not_mem_nil⟩
      rintro name ⟨⟩
      exact ha.plain.isName
    intro hparse
    exact hno ((ofSource_chainText_iff hplain hlink).1.mp hparse).1

end Programs

end ScriptTree
