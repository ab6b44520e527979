import ScriptTree.Proofs.ChainProgram
import ScriptTree.Proofs.MisreadNames
import ScriptTree.Proofs.Outcome

/-!
Which chains come out right.

Where a name of a chain is read as a keyword, what is built from there on holds an operand that is no
identifier, whatever the parser makes of the rest of the text. So a chain is grouped as it should be
if and only if none of its names is misread.
-/

namespace ScriptTree

/-- Nodes that are no identifiers, nor statements that consist of an expression. -/
def Node.isOther : Node → Bool
  | .identifier .. | .expressionStatement .. => false
  | _ => true

/-- A tree of binary operators in which an operand is no identifier. -/
def Node.HoldsOther (node : Node) : Prop :=
  ∃ leaf : Node, .inl leaf ∈ node.pieces ∧ leaf.isOther = true

theorem Node.HoldsOther.mono {node longer : Node} (h : node.HoldsOther)
    (hp : ∀ piece ∈ node.pieces, piece ∈ longer.pieces) : longer.HoldsOther := by
  obtain ⟨leaf, hin, hl⟩ := h
  exact ⟨leaf, hp _ hin, hl⟩

namespace ParserM

open Chain

variable {α β : Type}

/-- Taking operators keeps the pieces of what it starts with, whatever comes. -/
theorem climbs_keep (sub : Goal → ParserM Node) (rounds : Nat) :
    (∀ left least, Yields (takeOperators sub left least rounds) fun node =>
      ∀ piece ∈ left.pieces, piece ∈ node.pieces) ∧
    ∀ right strength, Yields (absorb sub right strength rounds) fun node =>
      ∀ piece ∈ right.pieces, piece ∈ node.pieces := by
  induction rounds with
  | zero => exact ⟨fun _ _ => yields_throw _ _, fun _ _ => yields_throw _ _⟩
  | succ rounds ih =>
    obtain ⟨iht, iha⟩ := ih
    -- absorbing is taking operators and then absorbing again
    have hboth : ∀ right least strength,
        Yields (takeOperators sub right least rounds >>= fun inner => absorb sub inner strength rounds)
          fun node => ∀ piece ∈ right.pieces, piece ∈ node.pieces := fun right least strength =>
      (iht right least).bind fun inner hi => (iha inner strength).mono fun _ hn piece hp =>
        hn piece (hi piece hp)
    refine ⟨fun left least => ?_, fun right strength => ?_⟩
    · rw [takeOperators]
      refine yields_bind fun found => ?_
      split
      · refine yields_ite (yields_pure fun _ h => h) ?_
        refine yields_bind fun _ => yields_bind fun _ => yields_bind fun right => ?_
        exact (iht _ _).mono fun _ hn piece hp => hn piece (List.mem_append_left _ hp)
      · exact yields_pure fun _ h => h
    · rw [absorb]
      refine yields_bind fun found => ?_
      split
      · exact yields_ite (hboth _ _ _) (yields_ite (hboth _ _ _) (yields_pure fun _ h => h))
      · exact yields_pure fun _ h => h

theorem holdsOther_of_pieces {node : Node} (hp : node.pieces = [.inl node])
    (hi : node.isOther = true) : node.HoldsOther :=
  ⟨node, by simp [hp], hi⟩

/-- An operand that holds something else than identifiers is not rid of it by being extended. -/
theorem extension_holdsOther (sub : Goal → ParserM Node) (kind : TokenKind) {operand : Node}
    (h : operand.HoldsOther) : Yields (extension sub kind operand) Node.HoldsOther := by
  have hnew {node : Node} (hp : node.pieces = [.inl node]) (hi : node.isOther = true) :
      Yields (pure node) Node.HoldsOther := yields_pure (holdsOther_of_pieces hp hi)
  unfold extension
  split
  · refine yields_bind fun word => ?_
    split
    · exact yields_ite (yields_bind fun _ => hnew rfl rfl) (yields_reject _ _)
    · exact yields_reject _ _
  · exact yields_bind fun _ => yields_bind fun _ => yields_bind fun _ => hnew rfl rfl
  · exact yields_bind fun _ => hnew rfl rfl
  · refine yields_bind fun word => yields_ite (yields_bind fun _ => hnew rfl rfl) ?_
    exact yields_bind fun rounds => ((climbs_keep sub rounds).1 _ _).mono fun _ hk => h.mono hk
  · exact yields_bind fun _ => yields_bind fun _ => yields_bind fun _ => hnew rfl rfl
  · exact yields_bind fun _ => yields_bind fun _ => yields_bind fun _ => yields_bind fun _ =>
      hnew rfl rfl
  · exact yields_bind fun _ => yields_bind fun _ => hnew rfl rfl
  · exact yields_bind fun _ => yields_bind fun _ =>
      yields_ite (yields_bind fun _ => hnew rfl rfl) (yields_bind fun _ => hnew rfl rfl)
  · exact yields_bind fun _ => yields_bind fun _ => hnew rfl rfl
  · exact yields_reject _ _

theorem Yields.handOver {operand : Node} {step : Node → ParserM Node} {P : Node → Prop}
    (h : Yields (step operand) P) (frame : Frame) : Yields (handOver frame operand step) P := by
  intro parser after node hn
  by_cases hd : parser.options.maxDepth ≤ parser.context.length
  · obtain ⟨_, _, hp, hn⟩ := ok_of_bind_ok hn
    cases hp
    exact absurd (hn.symm.trans (run_within_full hd)) nofun
  · rw [run_handOver (Nat.not_le.mp hd)] at hn
    exact h.within frame parser after node hn

theorem extend_holdsOther (sub : Goal → ParserM Node) (rounds : Nat) {operand : Node}
    (h : operand.HoldsOther) :
    Yields (extend arrowAhead sub operand rounds) Node.HoldsOther := by
  induction rounds generalizing operand with
  | zero => exact yields_throw _ _
  | succ rounds ih =>
    rw [extend_succ]
    refine yields_bind fun word => ?_
    cases word with
    | none => exact yields_pure h
    | some word =>
      refine yields_bind fun goes => yields_ite (Yields.bind ?_ fun longer hl => ih hl) (yields_pure h)
      exact (extension_holdsOther sub word.kind h).handOver _

theorem function_yields (sub : Goal → ParserM Node) : Yields (function sub) fun node =>
    ∃ role isAsync isGenerator name params body,
      node = .function role isAsync isGenerator name params body := by
  refine yields_bind fun _ => yields_bind fun _ => yields_bind fun _ => yields_bind fun _ => ?_
  refine yields_bind fun _ => yields_bind fun _ => yields_bind fun _ => yields_pure ?_
  exact ⟨_, _, _, _, _, _, rfl⟩

/-- The keywords that a misread name is read as do not start an identifier. -/
theorem opening_holdsOther (sub : Goal → ParserM Node) {word : Token}
    (hw : word.kind = .yieldKeyword ∨ word.kind = .functionKeyword) :
    Yields (opening arrowAhead sub word) Node.HoldsOther := by
  unfold opening
  rcases hw with hw | hw
  · rw [hw]
    refine yields_bind fun _ => yields_bind fun _ => yields_ite ?_ (yields_bind fun _ => ?_)
    · exact yields_pure (holdsOther_of_pieces rfl rfl)
    · exact yields_pure (holdsOther_of_pieces rfl rfl)
  · rw [hw]
    refine (function_yields sub).mono ?_
    rintro _ ⟨_, _, _, _, _, _, rfl⟩
    exact holdsOther_of_pieces rfl rfl

theorem operand_holdsOther {room : Nat} {parser after : Parser} {node : Node} {word : Token}
    {frame : Frame} (hf : frame.isEnclosing = true) (hw : parser.lexer.current = some word)
    (hk : word.kind = .yieldKeyword ∨ word.kind = .functionKeyword)
    (h : within frame (goal arrowAhead (room + 1) .operand) parser = .ok node after) :
    node.HoldsOther := by
  have ho : Yields (do
      let first ← opening arrowAhead (goal arrowAhead room) word
      extend arrowAhead (goal arrowAhead room) first (← budget)) Node.HoldsOther :=
    (opening_holdsOther _ hk).bind fun _ hfirst => yields_bind fun rounds =>
      extend_holdsOther _ rounds hfirst
  have ht : token { parser with context := frame :: parser.context } = .ok word _ := run_token hw
  refine ho.within frame parser after node ((within_congr ?_).trans h)
  change _ = operand arrowAhead (goal arrowAhead room) _
  rw [operand_of_not_extending (isExtending_of_isEnclosing hf)]
  simp only [freshOperand, fresh, run_bind, ht]

/-- Operators of the table with names behind them, of which one is misread and those before it are
read as such. -/
inductive Doomed : List Link → Prop
  | here {operator name : String} {links : List Link} :
    operator ∈ Operator.binaries.map Prod.fst → Misread (tail links) name.toList →
    Doomed ((operator, name) :: links)
  | later {operator name : String} {links : List Link} :
    operator ∈ Operator.binaries.map Prod.fst → IsName name.toList →
    (∀ afterOperand, Begins .default afterOperand .identifierName none name.toList (tail links)) →
    Doomed links → Doomed ((operator, name) :: links)

theorem Doomed.next {links : List Link} (h : Doomed links) :
    Next (· ∈ Operator.binaries.map Prod.fst) links := by
  rintro operator name others rfl
  cases h with
  | here ho _ => exact ho
  | later ho _ _ _ => exact ho

/-- What a step comes to that has started before a doomed chain: if it succeeds, it has either taken
the misread name or stopped before it, at an operator that satisfies a condition. -/
def Spoiled (m : ParserM Node) (parser : Parser) (condition : String → Prop) : Prop :=
  ∀ node after, m parser = .ok node after → node.HoldsOther ∨
    parser.Moved after ∧ ∃ rest, Doomed rest ∧ after.Before true (tail rest) ∧ Next condition rest

theorem atBoundary_tail (links : List Link) : atBoundary (tail links) = true := by
  cases links <;> rfl

/-- Behind an operator, the misread name is taken or comes later. -/
theorem operand_of_doomed {room : Nat} {parser after : Parser} {operator name : String}
    {links : List Link} {node : Node} (h : Doomed ((operator, name) :: links))
    (hb : parser.Before false (' ' :: (name.toList ++ tail links)))
    (hd : parser.context.length < parser.options.maxDepth)
    (hn : operandAt (goal arrowAhead (room + 1)) .binaryExpression .operand parser =
      .ok node after) :
    node.HoldsOther ∨ parser.Moved after ∧ Doomed links ∧ after.Before true (tail links) := by
  cases h with
  | here ho hm =>
    have hf := (hb.skip (Or.inl rfl) (hm.head_not_space _)).facing
    obtain ⟨word, hw, hk⟩ := hm.current (atBoundary_tail links) hf
    exact Or.inl (operand_holdsOther rfl hw hk hn)
  | later ho hname hbegins hrest =>
    obtain ⟨after', hx, hm, hb'⟩ := arrives_operand room hname hbegins hrest.next hb hd
    rw [hx] at hn
    cases hn
    exact Or.inr ⟨hm, hrest, hb'⟩

/-- Taking operators of at least some strength from a doomed chain stops before the misread name only
at a weaker operator. -/
def SpoilsTaking (room rounds : Nat) : Prop :=
  ∀ parser left least links, Doomed links → parser.Before true (tail links) →
    parser.context.length < parser.options.maxDepth →
    Spoiled (takeOperators (goal arrowAhead (room + 1)) left least rounds) parser
      fun operator => Operator.strength operator < least

/-- A right operand that takes what follows it takes the misread name, or leaves it to others. -/
def SpoilsAbsorbing (room rounds : Nat) : Prop :=
  ∀ parser right strength links, Doomed links → parser.Before true (tail links) →
    parser.context.length < parser.options.maxDepth →
    Spoiled (absorb (goal arrowAhead (room + 1)) right strength rounds) parser fun _ => True

theorem spoilsTaking_succ {room rounds : Nat} (ht : SpoilsTaking room rounds)
    (ha : SpoilsAbsorbing room rounds) : SpoilsTaking room (rounds + 1) := by
  intro parser left least links h hb hd node after hn
  cases links with
  | nil => cases h
  | cons link links =>
    obtain ⟨operator, name⟩ := link
    have ho := h.next operator name links rfl
    rw [takeOperators] at hn
    obtain ⟨found, _, hfound, hn⟩ := ok_of_bind_ok hn
    rw [run_binaryOperator_cons hb ho] at hfound
    cases hfound
    dsimp only at hn
    by_cases hs : Operator.strength operator < least
    · rw [if_pos hs] at hn
      cases hn
      refine Or.inr ⟨.refl parser, _, h, hb, ?_⟩
      rintro _ _ _ ⟨⟩
      exact hs
    · rw [if_neg hs] at hn
      obtain ⟨_, p₁, h₁, hn⟩ := ok_of_bind_ok hn
      obtain ⟨right, p₂, h₂, hn⟩ := ok_of_bind_ok hn
      obtain ⟨right', p₃, h₃, hn⟩ := ok_of_bind_ok hn
      obtain ⟨_, h₁', m₁, b₁⟩ := arrives_nextToken (on_operator hb ho)
      rw [h₁'] at h₁
      cases h₁
      -- what the right operand holds, the tree holds
      have hholds : right'.HoldsOther → node.HoldsOther := fun hr =>
        hr.mono fun piece hp => (climbs_keep _ _).1 _ _ _ _ _ hn piece
          (List.mem_append_right _ (List.mem_cons_of_mem _ hp))
      -- the misread name is the right operand, or is absorbed by it, or is taken later
      rcases operand_of_doomed h b₁ (by rw [m₁.context, m₁.options]; exact hd) h₂ with
        hr | ⟨m₂, hdoomed, b₂⟩
      · exact Or.inl (hholds (hr.mono ((climbs_keep _ _).2 _ _ _ _ _ h₃)))
      · have m₂' := m₁.trans m₂
        rcases ha p₂ right _ links hdoomed b₂ (by rw [m₂'.context, m₂'.options]; exact hd) right' p₃
          h₃ with hr | ⟨m₃, rest, hdoomed', b₃, -⟩
        · exact Or.inl (hholds hr)
        · have m₃' := m₂'.trans m₃
          rcases ht p₃ _ least rest hdoomed' b₃ (by rw [m₃'.context, m₃'.options]; exact hd) node after
            hn with hr | ⟨m₄, hrest⟩
          · exact Or.inl hr
          · exact Or.inr ⟨m₃'.trans m₄, hrest⟩

theorem spoilsAbsorbing_succ {room rounds : Nat} (ht : SpoilsTaking room rounds)
    (ha : SpoilsAbsorbing room rounds) : SpoilsAbsorbing room (rounds + 1) := by
  intro parser right strength links h hb hd
  have hboth (least : Nat) : Spoiled (do
      let right ← takeOperators (goal arrowAhead (room + 1)) right least rounds
      absorb (goal arrowAhead (room + 1)) right strength rounds) parser fun _ => True := by
    intro node after hn
    obtain ⟨inner, p₁, h₁, hn⟩ := ok_of_bind_ok hn
    rcases ht parser right least links h hb hd inner p₁ h₁ with hi | ⟨m₁, rest, hdoomed, b₁, -⟩
    · exact Or.inl (hi.mono ((climbs_keep _ _).2 _ _ _ _ _ hn))
    · rcases ha p₁ inner strength rest hdoomed b₁ (by rw [m₁.context, m₁.options]; exact hd) node
        after hn with hr | ⟨m₂, hrest⟩
      · exact Or.inl hr
      · exact Or.inr ⟨m₁.trans m₂, hrest⟩
  intro node after hn
  rw [absorb] at hn
  obtain ⟨found, between, hfound, hchoice⟩ := ok_of_bind_ok hn
  -- looking at the operator moves nothing
  have hbetween : between = parser := by
    cases links with
    | nil => cases h
    | cons link links =>
      rw [run_binaryOperator_cons hb (h.next link.1 link.2 links rfl)] at hfound
      cases hfound
      rfl
  subst hbetween
  have hstop : Spoiled (pure right) between fun _ => True := by
    rintro _ _ ⟨⟩
    exact Or.inr ⟨.refl _, links, h, hb, fun _ _ _ _ => trivial⟩
  split at hchoice
  · split at hchoice
    · exact hboth _ node after hchoice
    · split at hchoice
      · exact hboth _ node after hchoice
      · exact hstop node after hchoice
  · exact hstop node after hchoice

theorem climbs_spoiled (room rounds : Nat) :
    SpoilsTaking room rounds ∧ SpoilsAbsorbing room rounds := by
  induction rounds with
  | zero =>
    refine ⟨?_, ?_⟩
    · intro parser left least links _ _ _ node after hn
      cases hn
    · intro parser right strength links _ _ _ node after hn
      cases hn
  | succ rounds ih => exact ⟨spoilsTaking_succ ih.1 ih.2, spoilsAbsorbing_succ ih.1 ih.2⟩

theorem statementAt_of_programBody {sub : Goal → ParserM Node} {rounds : Nat}
    {parser after : Parser} {first : Node} {others : List Node}
    (h : programBody sub rounds parser = .ok (first :: others) after) :
    ∃ between, statementAt sub .program .body parser = .ok first between := by
  cases rounds with
  | zero => cases h
  | succ rounds =>
    obtain ⟨word, _, hw, h⟩ := ok_of_bind_ok h
    cases hw
    split at h
    · cases h
    · obtain ⟨node, between, hn, h⟩ := ok_of_bind_ok h
      obtain ⟨_, _, _, h⟩ := ok_of_bind_ok h
      obtain ⟨_, _, _, h⟩ := ok_of_bind_ok h
      cases h
      exact ⟨between, hn⟩

theorem statementAt_of_ofSourceWith {source : String} {options : ParserOptions} {first : Node}
    {others : List Node} (h : Node.ofSourceWith options source = .ok (.program (first :: others))) :
    ∃ after, statementAt (goal arrowAhead options.maxDepth) .program .body
      (Parser.started source options) = .ok first after := by
  unfold Node.ofSourceWith Parser.run at h
  cases hp : program arrowAhead (Parser.ofText source options) with
  | error failure after => simp only [hp, reduceCtorEq] at h
  | ok node after =>
    simp only [hp, Except.ok.injEq] at h
    subst h
    obtain ⟨_, _, hfirst, hp⟩ := ok_of_bind_ok hp
    cases hfirst
    obtain ⟨_, _, hget, hp⟩ := ok_of_bind_ok hp
    cases hget
    obtain ⟨body, _, hbody, hp⟩ := ok_of_bind_ok hp
    obtain ⟨_, _, hget, hp⟩ := ok_of_bind_ok hp
    cases hget
    split at hp
    · cases hp
      exact statementAt_of_programBody hbody
    · cases hp

theorem statementAt_of_ofSource {source : String} {first : Node} {others : List Node}
    (h : Node.ofSource source = .ok (.program (first :: others))) :
    ∃ after, statementAt (goal arrowAhead 200) .program .body (Parser.started source {}) =
      .ok first after :=
  statementAt_of_ofSourceWith h

theorem expressionStatement_holdsOther {sub : Goal → ParserM Node} {parser after : Parser}
    {tree : Node}
    (ho : ∀ node between, operandAt sub .expressionStatement .expression parser = .ok node between →
      node.HoldsOther)
    (h : expressionStatement sub parser = .ok (.expressionStatement tree) after) :
    tree.HoldsOther := by
  obtain ⟨node, between, hn, h⟩ := ok_of_bind_ok h
  have hnode := ho node between hn
  split at h
  · cases h
    obtain ⟨leaf, hl, hother⟩ := hnode
    cases List.mem_singleton.mp hl
    cases hother
  · obtain ⟨_, _, _, h⟩ := ok_of_bind_ok h
    cases h
    exact hnode

theorem holdsOther_of_misread {first : String} {links : List Link} {tree : Node}
    (hm : Misread (tail links) first.toList) (harrow : ArrowFree (first.toList ++ tail links))
    (h : Node.ofSource (text first links) = .ok (.program [.expressionStatement tree])) :
    tree.HoldsOther := by
  have hb := Parser.before_started {} ((toList_text first links).symm ▸ harrow)
  rw [toList_text] at hb
  obtain ⟨word, hw, hk⟩ := hm.current (atBoundary_tail links) hb.facing
  obtain ⟨after, hs⟩ := statementAt_of_ofSource h
  obtain ⟨_, hs⟩ := ok_of_within_ok hs
  obtain ⟨word', _, ht, hs⟩ := ok_of_bind_ok hs
  cases ht.symm.trans (run_token hw)
  -- `yield` starts an expression, `function` a declaration, which is no expression statement
  rcases hk with hk | hk
  · rw [hk] at hs
    have hx : expressionStatement (goal arrowAhead (198 + 1)) _ = .ok (.expressionStatement tree) _ :=
      hs
    refine expressionStatement_holdsOther (fun _ _ hn => ?_) hx
    refine operand_holdsOther rfl ?_ (Or.inl hk) hn
    exact hw
  · rw [hk] at hs
    obtain ⟨_, _, _, _, _, _, hf⟩ := function_yields _ _ _ _ hs
    cases hf

/-- As an operand, a chain of which a name other than the first is misread. -/
theorem operandAt_of_doomed {room : Nat} {parser after : Parser} {first : String}
    {links : List Link} {node : Node} (hn : IsName first.toList)
    (hbegins : ∀ afterOperand, Begins .default afterOperand .identifierName none first.toList
      (tail links))
    (hdoomed : Doomed links) (hb : parser.Before false (first.toList ++ tail links))
    (hd : parser.context.length + 3 ≤ parser.options.maxDepth)
    (h : operandAt (goal arrowAhead (room + 2)) .expressionStatement .expression parser =
      .ok node after) : node.HoldsOther := by
  obtain ⟨_, h⟩ := ok_of_within_ok h
  have hread := readsAs_identifier hn
  rw [String.ofList_toList] at hread
  let inner : Parser :=
    { parser with context := .filling .expressionStatement .expression :: parser.context }
  obtain ⟨-, rounds, between, hx, hm, hb', hlt⟩ := hread (room + 1) inner false (tail links) _ _
    (hb.enter _) hbegins rfl rfl (Nat.zero_le _)
    (by simp only [inner, List.length_cons]; omega)
  have hc : between.context = .filling .expressionStatement .expression :: parser.context :=
    hm.context
  have hd' : between.context.length + 1 < between.options.maxDepth := by
    rw [hc, hm.options, List.length_cons]
    exact hd
  obtain ⟨rounds, rfl⟩ := Nat.exists_eq_succ_of_ne_zero (Nat.ne_zero_of_lt hlt)
  replace h := hx.symm.trans h
  cases links with
  | nil => cases hdoomed
  | cons link links =>
    have ho := hdoomed.next link.1 link.2 links rfl
    replace h := (extend_operators rounds hc hb' ho (by omega)).symm.trans h
    obtain ⟨longer, _, hl, h⟩ := ok_of_bind_ok h
    obtain ⟨_, hl⟩ := ok_of_within_ok hl
    refine extend_holdsOther _ _ ?_ _ _ _ h
    -- the outermost call stops at no operator, so it does not stop before the misread name
    rcases (climbs_spoiled room _).1 _ _ _ _ hdoomed (hb'.enter _) hd' _ _ hl with
      hother | ⟨-, rest, hdoomed', -, hnext⟩
    · exact hother
    · cases eq_nil_of_next hdoomed'.next hnext
      cases hdoomed'

theorem holdsOther_of_doomed {first : String} {links : List Link} {tree : Node}
    (hn : IsName first.toList)
    (hbegins : ∀ afterOperand, Begins .default afterOperand .identifierName none first.toList
      (tail links))
    (hdoomed : Doomed links) (harrow : ArrowFree (first.toList ++ tail links))
    (h : Node.ofSource (text first links) = .ok (.program [.expressionStatement tree])) :
    tree.HoldsOther := by
  have hb := Parser.before_started {} ((toList_text first links).symm ▸ harrow)
  rw [toList_text] at hb
  have hon := (hb.enter (.filling .program .body)).on (hbegins false) rfl (isUpdateSpelling_name hn)
  obtain ⟨after, hs⟩ := statementAt_of_ofSource h
  obtain ⟨_, hs⟩ := ok_of_within_ok hs
  replace hs := (run_statement_of_atExpression ⟨_, _, _, _, hon, rfl⟩).symm.trans hs
  refine expressionStatement_holdsOther (fun node between hx => ?_) hs
  exact operandAt_of_doomed hn hbegins hdoomed (hb.enter _) (Nat.le_of_ble_eq_true rfl) hx

end ParserM

namespace Chain

/-- Plain names with operators of the rule table between them. -/
structure Plain (first : String) (links : List Link) : Prop where
  first : IsPlainName first.toList
  links : ∀ link ∈ links, link.1 ∈ Operator.binaries.map Prod.fst ∧ IsPlainName link.2.toList

/-- No name of a chain is misread before what follows it. -/
def Clear : String → List Link → Prop
  | first, [] => ¬Misread (tail []) first.toList
  | first, (operator, name) :: links =>
    ¬Misread (tail ((operator, name) :: links)) first.toList ∧ Clear name links

theorem Clear.first {first : String} {links : List Link} (h : Clear first links) :
    ¬Misread (tail links) first.toList := by
  cases links with
  | nil => exact h
  | cons link links => exact h.1

theorem Plain.next {first operator name : String} {links : List Link}
    (h : Plain first ((operator, name) :: links)) : Plain name links :=
  ⟨(h.links _ List.mem_cons_self).2, fun link hm => h.links link (List.mem_cons_of_mem _ hm)⟩

theorem afterSpelling?_tail {links : List Link}
    (h : Next (· ∈ Operator.binaries.map Prod.fst) links) :
    afterSpelling? Scan.functionWord (afterSpace (tail links)) = none := by
  have hall : ∀ operator ∈ Operator.binaries.map Prod.fst,
      (operator.toList.head?.any fun c => !isSpace c && c != 'f') = true := by
    decide
  cases links with
  | nil => rfl
  | cons link links =>
    have hop := hall link.1 (h link.1 link.2 links rfl)
    cases hl : link.1.toList with
    | nil => simp [hl] at hop
    | cons c spelling =>
      simp only [hl, List.head?_cons, Option.any_some, Bool.and_eq_true, Bool.not_eq_true',
        bne_iff_ne] at hop
      have hspace : isSpace ' ' = true := by decide
      have ht : afterSpace (tail (link :: links)) =
          c :: (spelling ++ ' ' :: (link.2.toList ++ tail links)) := by
        simp [tail, hl, afterSpace, hspace, hop.1]
      rw [ht, Scan.functionWord, afterSpelling?, if_neg hop.2.symm]

theorem Plain.begins {first : String} {links : List Link} (h : Plain first links)
    (hm : ¬Misread (tail links) first.toList) (afterOperand : Bool) :
    Begins .default afterOperand .identifierName none first.toList (tail links) := by
  refine begins_name h.first (ParserM.atBoundary_tail links) (fun _ _ _ => ?_) hm afterOperand
  refine afterSpelling?_tail ?_
  rintro operator name others rfl
  exact (h.links _ List.mem_cons_self).1

theorem Plain.legible {first : String} {links : List Link} (h : Plain first links)
    (hc : Clear first links) : Legible links := by
  induction links generalizing first with
  | nil => trivial
  | cons link links ih =>
    have hop := (h.links _ List.mem_cons_self).1
    exact ⟨hop, h.next.first.isName, h.next.begins hc.2.first, ih h.next hc.2⟩

/-- A chain that is not clear has a first name that is misread. -/
theorem Plain.misread_or_doomed {first : String} {links : List Link} (h : Plain first links)
    (hc : ¬Clear first links) :
    Misread (tail links) first.toList ∨
      ¬Misread (tail links) first.toList ∧ ParserM.Doomed links := by
  induction links generalizing first with
  | nil => exact Or.inl (not_not.mp hc)
  | cons link links ih =>
    obtain ⟨operator, name⟩ := link
    by_cases hm : Misread (tail ((operator, name) :: links)) first.toList
    · exact Or.inl hm
    · have hop := (h.links _ List.mem_cons_self).1
      refine Or.inr ⟨hm, ?_⟩
      rcases ih h.next fun hclear => hc ⟨hm, hclear⟩ with hmis | ⟨hno, hdoomed⟩
      · exact .here hop hmis
      · exact .later hop h.next.first.isName (h.next.begins hno) hdoomed

theorem Plain.arrowFree {first : String} {links : List Link} (h : Plain first links) :
    ArrowFree (first.toList ++ tail links) := by
  refine (arrowFree_name h.first.isName).append (arrowFree_tail fun link hm => ?_) (Or.inr ?_)
  · exact ⟨(h.links link hm).1, (h.links link hm).2.isName⟩
  · cases links <;> simp [tail]

theorem not_holdsOther {first : String} {links : List Link} {tree : Node}
    (h : tree.pieces = .inl (.identifier first) :: pieces links) : ¬tree.HoldsOther := by
  rintro ⟨leaf, hl, hother⟩
  rw [h] at hl
  have hleaf : leaf = .identifier first ∨ ∃ operator name, (operator, name) ∈ links ∧
      leaf = .identifier name := by
    simpa [pieces] using hl
  rcases hleaf with rfl | ⟨_, _, -, rfl⟩ <;> cases hother

/-- A chain of plain names with operators of the rule table between them, of any length, is parsed as
one expression statement, whose tree is the only one that has the names and operators of the chain in
their order and is grouped by their strengths. There are names for which this fails: it holds if and
only if no name of the chain is misread as a keyword before what follows it. -/
theorem ofSource_chain_iff {first : String} {links : List Link} (h : Plain first links) :
    (∃ tree, Node.ofSource (text first links) = .ok (.program [.expressionStatement tree]) ∧
      tree.pieces = .inl (.identifier first) :: pieces links ∧ tree.Grouped ∧
      ∀ other : Node, other.pieces = .inl (.identifier first) :: pieces links → other.Grouped →
        other = tree) ↔ Clear first links := by
  constructor
  · rintro ⟨tree, hparse, hpieces, -, -⟩
    by_contra hc
    refine not_holdsOther hpieces ?_
    rcases h.misread_or_doomed hc with hm | ⟨hm, hdoomed⟩
    · exact ParserM.holdsOther_of_misread hm h.arrowFree hparse
    · exact ParserM.holdsOther_of_doomed h.first.isName (h.begins hm) hdoomed h.arrowFree hparse
  · intro hc
    obtain ⟨tree, hparse, hpieces, hgrouped⟩ := ParserM.ofSource_of_legible h.first.isName
      (h.begins hc.first) (h.legible hc) h.arrowFree
    exact ⟨tree, hparse, hpieces, hgrouped, fun other hp hg =>
      Node.Grouped.eq_of_pieces_eq hg hgrouped (hp.trans hpieces.symm)⟩

theorem ofSource_chain_power :
    (∃ tree, Node.ofSource (text "a" [("*", "b"), ("**", "c"), ("-", "d")]) =
        .ok (.program [.expressionStatement tree]) ∧
      tree.pieces = .inl (.identifier "a") :: pieces [("*", "b"), ("**", "c"), ("-", "d")] ∧
      tree.Grouped ∧ ∀ other : Node, other.pieces =
        .inl (.identifier "a") :: pieces [("*", "b"), ("**", "c"), ("-", "d")] →
        other.Grouped → other = tree) ∧
    ¬∃ tree, Node.ofSource (text "yield\u200c" [("*", "b")]) =
        .ok (.program [.expressionStatement tree]) ∧
      tree.pieces = .inl (.identifier "yield\u200c") :: pieces [("*", "b")] ∧ tree.Grouped ∧
      ∀ other : Node, other.pieces = .inl (.identifier "yield\u200c") :: pieces [("*", "b")] →
        other.Grouped → other = tree := by
  refine ⟨(ofSource_chain_iff ?_).mpr ?_, fun h => ?_⟩
  · exact ⟨by decide, by decide⟩
  · have hsolid {name : String} (links : List Link) (hn : name.toList.any isSpace = false) :
        ¬Misread (tail links) name.toList := by
      intro hm
      obtain ⟨c, hc, hs⟩ := hm.exists_mem
      rw [List.any_eq_false] at hn
      exact hn c hc hs
    exact ⟨hsolid _ (by decide), hsolid _ (by decide), hsolid _ (by decide),
      hsolid _ (by decide)⟩
  · have hplain : Plain "yield\u200c" [("*", "b")] :=
      ⟨by decide +kernel, by decide +kernel⟩
    have hgap : IsGap ['\u200c'] := ⟨by decide, List.all_eq_true.mp (by decide)⟩
    exact ((ofSource_chain_iff hplain).mp h).1 (.yield hgap (by decide))

end Chain

end ScriptTree
