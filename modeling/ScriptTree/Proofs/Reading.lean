import ScriptTree.Proofs.Standing

/-!
Texts that are read as operands.

An operand is read from its first token on and then extended for as long as the next token continues
it. So what a text is read as is said with the extension still to come: the text is gone through, and
what is left to do is to extend the operand it stands for.
-/

namespace ScriptTree

namespace ParserM

/-- In some frames, a text before some others is gone through as an operand, which is left to be
extended. It starts as no other statement does than one that is an expression. The limits have to
leave room for as many constructs as are needed. -/
def ReadsAs (needed : Nat) (suits : Frame → Prop) (follows : List Char → Prop) (text : List Char)
    (operand : Node) : Prop :=
  ∀ (room : Nat) (parser : Parser) (afterOperand : Bool) (rest : List Char) (frame : Frame)
    (outer : Context),
    parser.Before afterOperand (text ++ rest) → follows rest →
    parser.context = frame :: outer → suits frame →
    needed ≤ room → parser.context.length + needed ≤ parser.options.maxDepth →
    parser.AtExpression ∧ ∃ rounds after,
      ParserM.operand arrowAhead (goal arrowAhead room) parser =
        extend arrowAhead (goal arrowAhead room) operand rounds after ∧
      parser.Moved after ∧ after.Before true rest ∧ rest.length < rounds

/-- A frame in which no operand is extended by the first token of a text. -/
def Halts (frame : Frame) (text : List Char) : Prop :=
  ∀ (lexer : Lexer) (word : Token), lexer.Facing .default true text → lexer.current = some word →
    ∀ (operand : Node) (outer : Context), Context.admits (frame :: outer) operand word = false

theorem ReadsAs.mono {needed needed' : Nat} {suits suits' : Frame → Prop}
    {follows follows' : List Char → Prop} {text : List Char} {operand : Node}
    (h : ReadsAs needed suits follows text operand) (hn : needed ≤ needed')
    (hs : ∀ frame, suits' frame → suits frame) (hf : ∀ rest, follows' rest → follows rest) :
    ReadsAs needed' suits' follows' text operand := by
  intro room parser afterOperand rest frame outer hb hr hc hsf hroom hd
  exact h room parser afterOperand rest frame outer hb (hf rest hr) hc (hs frame hsf) (by omega)
    (by omega)

section Extending

variable {sub : Goal → ParserM Node} {parser : Parser} {operand : Node} {afterOperand : Bool}
  {rest : List Char}

theorem operand_of_fresh {holds : Parser → Prop} (he : parser.context.isExtending = false)
    (h : Leads (fresh arrowAhead sub) parser operand holds) :
    ∃ after, ParserM.operand arrowAhead sub parser =
        extend arrowAhead sub operand parser.budget after ∧
      parser.Moved after ∧ holds after := by
  obtain ⟨after, hf, hm, hb⟩ := h
  refine ⟨after, ?_, hm, hb⟩
  rw [operand_of_not_extending he, freshOperand, run_bind, hf]
  simp only [run_bind, run_budget, hm.budget]

theorem extend_halt {rounds : Nat} {frame : Frame} {outer : Context}
    (hf : parser.lexer.Facing .default true rest) (hc : parser.context = frame :: outer)
    (hh : Halts frame rest) (hr : 0 < rounds) :
    extend arrowAhead sub operand rounds parser = .ok operand parser := by
  obtain ⟨rounds, rfl⟩ := Nat.exists_eq_succ_of_ne_zero (Nat.pos_iff_ne_zero.mp hr)
  rw [Nat.succ_eq_add_one, extend_succ]
  simp only [run_bind, run_current]
  cases hw : parser.lexer.current with
  | none => rfl
  | some word =>
    have ha := hh parser.lexer word hf hw operand outer
    simp only [run_bind, run_continues, hc, ha, Bool.and_false, Bool.false_eq_true, if_false, run_pure]

/-- An operand is not extended by a token that extends none. -/
theorem extend_stop {rounds : Nat} {word : Token} (hw : parser.lexer.current = some word)
    (hk : canExtend word.kind = false) (hr : 0 < rounds) :
    extend arrowAhead sub operand rounds parser = .ok operand parser := by
  obtain ⟨rounds, rfl⟩ := Nat.exists_eq_succ_of_ne_zero (Nat.pos_iff_ne_zero.mp hr)
  have ha : parser.context.admits operand word = false := by
    rw [Bool.eq_false_iff]
    intro ha
    rw [canExtend_of_admits ha] at hk
    cases hk
  rw [Nat.succ_eq_add_one, extend_succ]
  simp only [run_bind, run_current, hw, run_continues, ha, Bool.and_false, Bool.false_eq_true,
    if_false, run_pure]

/-- At the end of the text, too, an operand is not extended. -/
theorem extend_stops {rounds : Nat} (h : ∀ word ∈ parser.lexer.current, canExtend word.kind = false)
    (hr : 0 < rounds) : extend arrowAhead sub operand rounds parser = .ok operand parser := by
  cases hw : parser.lexer.current with
  | some word => exact extend_stop hw (h word hw) hr
  | none =>
    obtain ⟨rounds, rfl⟩ := Nat.exists_eq_succ_of_ne_zero (Nat.pos_iff_ne_zero.mp hr)
    rw [Nat.succ_eq_add_one, extend_succ]
    simp only [run_bind, run_current, hw, run_pure]

theorem run_extend_step {word : Token} (rounds : Nat) (hw : parser.lexer.current = some word)
    (hi : parser.context.isComplete operand = false)
    (ha : parser.context.admits operand word = true)
    (hd : parser.context.length < parser.options.maxDepth) :
    extend arrowAhead sub operand (rounds + 1) parser =
      (within (.extending operand.kind) (extension sub word.kind operand) >>=
        fun longer => extend arrowAhead sub longer rounds) parser := by
  rw [extend_succ]
  simp only [run_bind, run_current, run_continues, hw, hi, ha, Bool.not_false, Bool.and_self,
    if_true, run_handOver hd]

theorem extend_step {kind : TokenKind} {precedence : Option Nat} {value behind : List Char}
    {longer : Node} {word : Token} (rounds : Nat) (hon : parser.On kind precedence value behind)
    (hw : parser.lexer.current = some word) (hi : parser.context.isComplete operand = false)
    (ha : parser.context.admits operand word = true)
    (hd : parser.context.length < parser.options.maxDepth)
    (h : Arrives (extension sub kind operand)
      { parser with context := .extending operand.kind :: parser.context } longer afterOperand rest) :
    ∃ after, extend arrowAhead sub operand (rounds + 1) parser =
        extend arrowAhead sub longer rounds after ∧
      parser.Moved after ∧ after.Before afterOperand rest := by
  obtain ⟨after, hx, hm, hb⟩ := h.within hd
  -- the word that is admitted is the token the parser stands on
  obtain ⟨word', hw', hk, -⟩ := hon.shows.token
  rw [hw] at hw'
  cases hw'
  exact ⟨after, by rw [run_extend_step rounds hw hi ha hd, run_bind, hk, hx], hm, hb⟩

/-- An operand that is a statement is not extended. -/
theorem extend_complete {rounds : Nat} (hi : parser.context.isComplete operand = true)
    (hr : 0 < rounds) : extend arrowAhead sub operand rounds parser = .ok operand parser := by
  obtain ⟨rounds, rfl⟩ := Nat.exists_eq_succ_of_ne_zero (Nat.pos_iff_ne_zero.mp hr)
  rw [Nat.succ_eq_add_one, extend_succ]
  simp only [run_bind, run_current]
  cases parser.lexer.current with
  | none => rfl
  | some word =>
    simp only [run_bind, run_continues, hi, Bool.not_true, Bool.false_and, Bool.false_eq_true,
      if_false, run_pure]

end Extending

/-- A text that is read as an operand in a frame, up to a token that does not continue it. -/
theorem ReadsAs.arrives {needed : Nat} {suits : Frame → Prop} {follows : List Char → Prop}
    {text rest : List Char} {operand : Node} {parser : Parser} {afterOperand : Bool} {frame : Frame}
    {room : Nat} (h : ReadsAs needed suits follows text operand)
    (hb : parser.Before afterOperand (text ++ rest))
    (hf : follows rest) (hs : suits frame) (hh : Halts frame rest) (hr : needed < room)
    (hd : parser.context.length + needed < parser.options.maxDepth) :
    Arrives (within frame (goal arrowAhead room .operand)) parser operand true rest := by
  obtain ⟨room, rfl⟩ := Nat.exists_eq_succ_of_ne_zero (Nat.ne_zero_of_lt hr)
  refine Arrives.within ?_ (by omega)
  obtain ⟨-, rounds, after, ho, hm, hb', hlt⟩ := h room
    { parser with context := frame :: parser.context } afterOperand rest frame parser.context
    (hb.enter frame) hf rfl hs (by omega)
    (by simp only [List.length_cons]; omega)
  refine ⟨after, ?_, hm, hb'⟩
  change ParserM.operand arrowAhead (goal arrowAhead room) _ = _
  rw [ho]
  exact extend_halt hb'.facing hm.context hh (Nat.zero_lt_of_lt hlt)

/-- A text that goes on with what extends the operand is read as the longer operand. -/
theorem ReadsAs.extended {needed needed' : Nat} {suits suits' : Frame → Prop}
    {follows follows' : List Char → Prop} {text more : List Char} {operand longer : Node}
    (h : ReadsAs needed suits follows text operand) (hn : needed ≤ needed') (hone : 1 ≤ needed')
    (hs : ∀ frame, suits' frame → suits frame) (hf : ∀ rest, follows' rest → follows (more ++ rest))
    (hm : more ≠ []) (hi : ∀ context : Context, context.isComplete operand = false)
    (hx : ∀ (room : Nat) (parser : Parser) (rest : List Char) (frame : Frame) (outer : Context),
      parser.Before true (more ++ rest) → follows' rest → parser.context = frame :: outer →
      suits' frame → needed' ≤ room → parser.context.length + needed' ≤ parser.options.maxDepth →
      ∃ kind precedence value behind, parser.On kind precedence value behind ∧
        (∀ word : Token, word.kind = kind → word.value = String.ofList value →
          word.precedence = precedence → Context.admits (frame :: outer) operand word = true) ∧
        Arrives (extension (goal arrowAhead room) kind operand)
          { parser with context := .extending operand.kind :: parser.context } longer true rest) :
    ReadsAs needed' suits' follows' (text ++ more) longer := by
  intro room parser afterOperand rest frame outer hb hr hc hsf hroom hd
  rw [List.append_assoc] at hb
  -- first the shorter operand is gone through, with the rest of the text still ahead
  obtain ⟨hat, rounds, between, ho, hmoved, hb', hlt⟩ := h room parser afterOperand (more ++ rest)
    frame outer hb (hf rest hr) hc (hs frame hsf) (by omega) (by omega)
  have hc' : between.context = frame :: outer := hmoved.context.trans hc
  have hd' : between.context.length + needed' ≤ between.options.maxDepth := by
    rw [hmoved.context, hmoved.options]
    exact hd
  obtain ⟨kind, precedence, value, behind, hon, hadm, hax⟩ := hx room between rest frame outer hb' hr
    hc' hsf hroom hd'
  obtain ⟨word, hw, hk, hv, hp⟩ := hon.shows.token
  obtain ⟨rounds, rfl⟩ := Nat.exists_eq_succ_of_ne_zero (Nat.ne_zero_of_lt hlt)
  obtain ⟨after, hxe, hmoved', hb''⟩ := extend_step rounds hon hw (hi _)
    (by rw [hc']; exact hadm word hk hv hp) (by omega) hax
  refine ⟨hat, rounds, after, ho.trans hxe, hmoved.trans hmoved', hb'', ?_⟩
  -- a round has been spent, but on at least one character
  have hpos := List.length_pos_iff.mpr hm
  rw [List.length_append] at hlt
  omega

/-- What starts an operand at its first token is read as that operand. -/
theorem readsAs_of_fresh {needed : Nat} {suits : Frame → Prop} {follows : List Char → Prop}
    {text : List Char} {operand : Node}
    (hs : ∀ frame, suits frame → frame.isEnclosing = true)
    (h : ∀ (room : Nat) (parser : Parser) (afterOperand : Bool) (rest : List Char),
      parser.Before afterOperand (text ++ rest) → follows rest →
      needed ≤ room → parser.context.length + needed ≤ parser.options.maxDepth →
      parser.AtExpression ∧ Arrives (fresh arrowAhead (goal arrowAhead room)) parser operand true rest) :
    ReadsAs needed suits follows text operand := by
  intro room parser afterOperand rest frame outer hb hf hc hsf hr hd
  have he : parser.context.isExtending = false := by
    rw [hc]
    exact isExtending_of_isEnclosing (hs frame hsf)
  obtain ⟨hat, hx⟩ := h room parser afterOperand rest hb hf hr hd
  obtain ⟨after, ho, hm, hb'⟩ := operand_of_fresh he hx
  refine ⟨hat, parser.budget, after, ho, hm, hb', ?_⟩
  rw [← hm.budget]
  exact hb'.budget

theorem isUpdateSpelling_name {name : List Char} (h : IsName name) :
    isUpdateSpelling name = false := by
  cases name with
  | nil => rfl
  | cons c name =>
    have hc := (isName_cons_iff.mp h).1
    have hp : c ≠ '+' := ne_of_isNameStart hc (by decide)
    have hm : c ≠ '-' := ne_of_isNameStart hc (by decide)
    simp [isUpdateSpelling, hp, hm]

theorem arrives_fresh_identifier {opensArrow : ParserM Bool} {sub : Goal → ParserM Node}
    {parser : Parser} {name rest : List Char} (hon : parser.On .identifierName none name rest) :
    Arrives (fresh opensArrow sub) parser (.identifier (String.ofList name)) true rest := by
  obtain ⟨word, ht, hw, hk, hv, -⟩ := run_token_of_on hon
  obtain ⟨after, hx, hm, hb⟩ := arrives_nextToken hon
  refine ⟨after, ?_, hm, hb⟩
  simp only [fresh, run_bind, ht, opening, hk, identifier, hx, run_pure, hv]

theorem readsAs_identifier {name : List Char} (hn : IsName name) :
    ReadsAs 0 (fun frame => frame.isEnclosing = true)
      (fun rest => ∀ afterOperand, Begins .default afterOperand .identifierName none name rest)
      name (.identifier (String.ofList name)) := by
  refine readsAs_of_fresh (fun _ h => h) fun room parser afterOperand rest hb hf _ _ => ?_
  have hon : parser.On .identifierName none name rest :=
    hb.on (hf afterOperand) rfl (isUpdateSpelling_name hn)
  exact ⟨⟨_, _, _, _, hon, rfl⟩, arrives_fresh_identifier hon⟩

end ParserM

end ScriptTree
