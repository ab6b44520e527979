import ScriptTree.Proofs.MarkedNames

/-!
A name in any number of parentheses, under any limit on constructs inside each other.

Each pair of parentheses is a construct of its own, inside the statement and its expression. That none
of them starts an arrow function is found out by reading ahead, which enters no construct. So the limit
that is just high enough is known, and under a lower one the parse fails for the limit.
-/

namespace ScriptTree

open ParserM

/-- A text in a number of parentheses. -/
def nestedText (count : Nat) (text : List Char) : List Char :=
  List.replicate count '(' ++ text ++ List.replicate count ')'

theorem nestedText_zero (text : List Char) : nestedText 0 text = text := List.append_nil text

theorem nestedText_succ (count : Nat) (text : List Char) :
    nestedText (count + 1) text = '(' :: (nestedText count text ++ [')']) := by
  rw [nestedText, List.replicate_succ, List.replicate_succ', nestedText]
  simp only [List.cons_append, List.append_assoc]

/-- What follows parentheses follows the inner ones behind a closing parenthesis. -/
theorem nestedText_succ_append (count : Nat) (text rest : List Char) :
    nestedText (count + 1) text ++ rest = '(' :: (nestedText count text ++ ')' :: rest) := by
  rw [nestedText_succ, List.cons_append, List.append_assoc, List.singleton_append]

theorem arrowFree_nestedText {name : List Char} (h : IsName name) (count : Nat) :
    ArrowFree (nestedText count name) := by
  refine arrowFree_of_not_mem fun hm => ?_
  rcases List.mem_append.mp hm with hm | hm
  · rcases List.mem_append.mp hm with hm | hm
    · exact absurd (List.eq_of_mem_replicate hm) (by decide)
    · exact absurd (h.part _ hm) (by decide)
  · exact absurd (List.eq_of_mem_replicate hm) (by decide)

namespace ParserM

variable {parser : Parser} {afterOperand : Bool} {rest : List Char} {frame : Frame} {room : Nat}

theorem run_within_error {α : Type} {m : ParserM α} {failure : Failure} {after : Parser}
    (hd : parser.context.length < parser.options.maxDepth)
    (h : m { parser with context := frame :: parser.context } = .error failure after) :
    within frame m parser = .error failure { after with context := after.context.tail } := by
  rw [run_within hd, h]

/-- In front of no arrow, an opening parenthesis is stepped over. -/
theorem exists_insideParens {sub : Goal → ParserM Node} {text : List Char}
    (h : parser.Before afterOperand ('(' :: text)) :
    ∃ between, parser.Moved between ∧ between.Before false text ∧
      fresh arrowAhead sub parser = insideParens sub between := by
  obtain ⟨asked, m₁, hon, hx⟩ := run_fresh_paren (h.on_mark (by decide))
  obtain ⟨between, h₂, m₂, b₂⟩ := arrives_nextToken hon
  refine ⟨between, m₁.trans m₂, b₂, hx.trans ?_⟩
  rw [parenthesized_eq, run_bind, h₂]

theorem isEnclosing_parentheses : Frame.parentheses.isEnclosing = true := rfl

theorem arrives_insideParens {sub : Goal → ParserM Node} {node : Node} (hb : 0 < parser.budget)
    (hat : isAt .closeParen parser = .ok false parser)
    (h : Arrives (within .parentheses (sub .operand)) parser node true (')' :: rest)) :
    Arrives (insideParens sub) parser node true rest := by
  obtain ⟨p₁, h₁, m₁, b₁⟩ := h
  have hclose : p₁.On .closeParen none [')'] rest := b₁.on_mark (by decide)
  have hnext : p₁.Moved { p₁ with lexer := p₁.lexer.next .default } := ⟨_, _, rfl⟩
  exact ⟨_, run_insideParens hb hat h₁ hclose.shows, m₁.trans hnext, hclose.shows.next .default,
    hclose.answers, hclose.arrowFree, hclose.budget⟩

/-- An operand in parentheses is the operand of the construct that the parentheses are: what comes of
the one comes of the other. -/
theorem exists_innerOperand {inner : List Char} (hf : frame.isEnclosing = true)
    (h : parser.Before afterOperand ('(' :: (inner ++ ')' :: rest)))
    (hat : ∀ between : Parser, between.Before false (inner ++ ')' :: rest) →
      isAt .closeParen between = .ok false between)
    (room : Nat) (hd : parser.context.length < parser.options.maxDepth) :
    ∃ between : Parser, between.Before false (inner ++ ')' :: rest) ∧
      between.context.length = parser.context.length + 1 ∧ between.options = parser.options ∧
      (∀ failure after,
        within .parentheses (goal arrowAhead room .operand) between = .error failure after →
        ∃ after', within frame (goal arrowAhead (room + 1) .operand) parser = .error failure after') ∧
      ∀ node, Halts frame rest →
        Arrives (within .parentheses (goal arrowAhead room .operand)) between node true (')' :: rest) →
        Arrives (within frame (goal arrowAhead (room + 1) .operand)) parser node true rest := by
  let inside : Parser := { parser with context := frame :: parser.context }
  have hextending : inside.context.isExtending = false := isExtending_of_isEnclosing hf
  have hbudget : 0 < parser.budget := Nat.zero_lt_of_lt h.budget
  obtain ⟨between, m₁, b₁, hx⟩ := exists_insideParens (h.enter frame)
  have hbudget' : 0 < between.budget := by rw [m₁.budget]; exact hbudget
  refine ⟨between, b₁, by rw [m₁.context]; rfl, m₁.options, ?_, ?_⟩
  · intro failure after hinner
    have hparens := run_insideParens_error hbudget' (hat between b₁) hinner
    -- the frame extends no operand, so a fresh one is read in it
    have hoperand : goal arrowAhead (room + 1) .operand inside = .error failure after := by
      change operand arrowAhead (goal arrowAhead room) inside = _
      rw [operand_of_not_extending hextending, freshOperand, run_bind, hx, hparens]
    exact ⟨_, run_within_error hd hoperand⟩
  · intro node hh hinner
    obtain ⟨p₂, h₂, m₂, b₂⟩ := arrives_insideParens hbudget' (hat between b₁) hinner
    have hfresh : Arrives (fresh arrowAhead (goal arrowAhead room)) inside node true rest :=
      ⟨p₂, hx.trans h₂, m₁.trans m₂, b₂⟩
    obtain ⟨p₃, h₃, m₃, b₃⟩ := operand_of_fresh hextending hfresh
    have hhalt : extend arrowAhead (goal arrowAhead room) node parser.budget p₃ = .ok node p₃ :=
      extend_halt b₃.facing m₃.context hh hbudget
    exact Arrives.within ⟨p₃, h₃.trans hhalt, m₃, b₃⟩ hd

section Nested

variable {name : List Char} {count : Nat}

/-- Neither a name nor parentheses around one close anything. -/
theorem not_closeParen_nested (hn : IsPlainName name)
    (h : parser.Before afterOperand (nestedText count name ++ ')' :: rest)) :
    isAt .closeParen parser = .ok false parser := by
  cases count with
  | zero =>
    have he : EndsMarked (')' :: rest) := .closing (by decide)
    rw [nestedText_zero] at h
    by_cases hs : IsSteadyName name
    · exact run_isAt_of_shows (h.facing.shows (he.begins_steadyName hs afterOperand) rfl
        (isUpdateSpelling_name hn.isName)) .closeParen
    -- the keyword that a misread name is taken for closes nothing either
    · exact run_isAt_of_shows (he.shows_misread (hn.misread hs) hn.isName h.facing) .closeParen
  | succ count =>
    rw [nestedText_succ_append] at h
    have hon : parser.On .openParen none ['('] _ := h.on_mark (by decide)
    exact run_isAt_of_on hon .closeParen

/-- With room enough, a steady name in parentheses is read as that name, by induction on the
parentheses. -/
theorem arrives_nested {name : String} (hn : IsSteadyName name.toList) (he : EndsMarked rest)
    (hf : frame.isEnclosing = true) (hh : Halts frame rest)
    (h : parser.Before afterOperand (nestedText count name.toList ++ rest)) (hroom : count < room)
    (hd : parser.context.length + count < parser.options.maxDepth) :
    Arrives (within frame (goal arrowAhead room .operand)) parser (.identifier name) true rest := by
  obtain ⟨room, rfl⟩ := Nat.exists_eq_succ_of_ne_zero (Nat.ne_zero_of_lt hroom)
  induction count generalizing parser afterOperand frame rest room with
  | zero =>
    rw [nestedText_zero] at h
    have hon : parser.On .identifierName none name.toList rest :=
      h.on (he.begins_steadyName hn afterOperand) rfl (isUpdateSpelling_name hn.plain.isName)
    exact arrives_nameOperand hon hf hh room hd
  | succ count ih =>
    rw [nestedText_succ_append] at h
    obtain ⟨between, hb, hc, ho, -, hread⟩ := exists_innerOperand hf h
      (fun _ hb => not_closeParen_nested hn.plain hb) room (by omega)
    obtain ⟨room, rfl⟩ := Nat.exists_eq_succ_of_ne_zero (Nat.ne_zero_of_lt (Nat.lt_of_succ_lt_succ hroom))
    -- a construct more is entered, with one pair of parentheses fewer to go
    exact hread _ hh (ih (.closing (by decide)) isEnclosing_parentheses (halts_close rest) hb
      (by rw [hc, ho]; omega) room (Nat.lt_of_succ_lt_succ hroom))

/-- With too little room, the parse fails for the limit, by induction on the parentheses: the limit is
reached at the latest where the name is. -/
theorem tooDeep_nested (hn : IsPlainName name) (hf : frame.isEnclosing = true)
    (h : parser.Before afterOperand (nestedText count name ++ rest))
    (hroom : parser.options.maxDepth ≤ room + parser.context.length)
    (hd : parser.options.maxDepth ≤ parser.context.length + count) :
    ∃ error after, within frame (goal arrowAhead room .operand) parser = .error (.rejected error) after ∧
      error.code = 1202 := by
  induction count generalizing parser afterOperand frame rest room with
  | zero => exact ⟨_, _, run_within_full hd, rfl⟩
  | succ count ih =>
    by_cases hfull : parser.options.maxDepth ≤ parser.context.length
    · exact ⟨_, _, run_within_full hfull, rfl⟩
    · obtain ⟨room, rfl⟩ : ∃ smaller, room = smaller + 1 := ⟨room - 1, by omega⟩
      rw [nestedText_succ_append] at h
      obtain ⟨between, hb, hc, ho, hfails, -⟩ := exists_innerOperand hf h
        (fun _ hb => not_closeParen_nested hn hb) room (Nat.not_le.mp hfull)
      -- the room shrinks as the depth grows, so the limit is still what is reached first
      have hroom' : between.options.maxDepth ≤ room + between.context.length := by
        rw [hc, ho]
        omega
      obtain ⟨error, after, hx, hcode⟩ := ih isEnclosing_parentheses hb hroom' (by rw [hc, ho]; omega)
      obtain ⟨after', hx'⟩ := hfails _ _ hx
      exact ⟨error, after', hx', hcode⟩

/-- What is not read inside parentheses is not read with them. -/
theorem fails_parens (hn : IsPlainName name) (hf : frame.isEnclosing = true)
    (h : parser.Before afterOperand (nestedText (count + 1) name ++ rest))
    (hinner : ∀ between : Parser, between.Before false (nestedText count name ++ ')' :: rest) →
      Fails (within .parentheses (goal arrowAhead room .operand)) between) :
    Fails (within frame (goal arrowAhead (room + 1) .operand)) parser := by
  by_cases hfull : parser.options.maxDepth ≤ parser.context.length
  · exact ⟨_, _, run_within_full hfull⟩
  · rw [nestedText_succ_append] at h
    obtain ⟨between, hb, -, -, hfails, -⟩ := exists_innerOperand hf h
      (fun _ hb => not_closeParen_nested hn hb) room (Nat.not_le.mp hfull)
    obtain ⟨failure, after, hx⟩ := hinner between hb
    obtain ⟨after', hx'⟩ := hfails failure after hx
    exact ⟨failure, after', hx'⟩

/-- A misread name in parentheses is not read, by induction on the parentheses. -/
theorem fails_nested {name : String} (hn : IsPlainName name.toList) (hs : ¬IsSteadyName name.toList)
    (hf : frame.isEnclosing = true)
    (h : parser.Before afterOperand (nestedText (count + 1) name.toList ++ rest))
    (hroom : count + 1 < room) : Fails (within frame (goal arrowAhead room .operand)) parser := by
  induction count generalizing parser afterOperand frame rest room with
  | zero =>
    obtain ⟨room, rfl⟩ : ∃ smaller, room = smaller + 2 := ⟨room - 2, by omega⟩
    refine fails_parens hn hf h fun between hb => ?_
    rw [nestedText_zero] at hb
    exact fails_markedName (hn.misread hs) hn.isName (by decide) hb.facing isEnclosing_parentheses room
  | succ count ih =>
    obtain ⟨room, rfl⟩ : ∃ smaller, room = smaller + 1 := ⟨room - 1, by omega⟩
    exact fails_parens hn hf h fun between hb =>
      ih isEnclosing_parentheses hb (Nat.lt_of_succ_lt_succ hroom)

/-- An expression starts with a name or with a parenthesis. -/
theorem exists_word_nested (hn : IsPlainName name) (hs : IsSteadyName name ∨ 0 < count)
    (h : parser.Before afterOperand (nestedText count name)) :
    ∃ word, parser.lexer.current = some word ∧
      (word.kind = .identifierName ∨ word.kind = .openParen) := by
  cases count with
  | zero =>
    have hsteady : IsSteadyName name := hs.resolve_right (Nat.lt_irrefl 0)
    rw [nestedText_zero, ← List.append_nil name] at h
    obtain ⟨word, hw, hk, -⟩ := (h.facing.shows (EndsMarked.nil.begins_steadyName hsteady afterOperand)
      rfl (isUpdateSpelling_name hn.isName)).token
    exact ⟨word, hw, Or.inl hk⟩
  | succ count =>
    rw [nestedText_succ] at h
    have hon : parser.On .openParen none ['('] _ := h.on_mark (by decide)
    obtain ⟨word, hw, hk, -⟩ := hon.shows.token
    exact ⟨word, hw, Or.inr hk⟩

end Nested

end ParserM

section Programs

variable {name : String} {count : Nat} {options : ParserOptions}

/-- The program that is a name in a number of parentheses. -/
def nestedSource (count : Nat) (name : String) : String := String.ofList (nestedText count name.toList)

theorem toList_nestedSource : (nestedSource count name).toList = nestedText count name.toList :=
  String.toList_ofList

/-- The first statement of the program is in front of all of it. -/
theorem before_nestedSource (hn : IsPlainName name.toList) :
    (Parser.started (nestedSource count name) options).inStatement.Before false
      (nestedText count name.toList) := by
  have htext : (nestedSource count name).toList = nestedText count name.toList := toList_nestedSource
  have harrows := arrowFree_nestedText hn.isName count
  have hstarted := Parser.before_started options (htext.symm ▸ harrows)
  rw [htext] at hstarted
  exact hstarted.enter (.filling .program .body)

theorem ofSourceWith_nestedSource (hn : IsSteadyName name.toList) (hd : count + 2 ≤ options.maxDepth) :
    Node.ofSourceWith options (nestedSource count name) =
      .ok (.program [.expressionStatement (.identifier name)]) := by
  let start : Parser := (Parser.started (nestedSource count name) options).inStatement
  obtain ⟨room, hroom⟩ : ∃ room, options.maxDepth = room + 1 := ⟨options.maxDepth - 1, by omega⟩
  have hbefore : start.Before false (nestedText count name.toList) := before_nestedSource hn.plain
  obtain ⟨word, hw, hk⟩ := exists_word_nested hn.plain (Or.inl hn) hbefore
  rw [← List.append_nil (nestedText count name.toList)] at hbefore
  have hdepth : start.context.length + count < start.options.maxDepth := by
    change 1 + count < options.maxDepth
    omega
  obtain ⟨after, hx, hm, hb⟩ :
      Arrives (operandAt (goal arrowAhead room) .expressionStatement .expression) start
        (.identifier name) true [] :=
    arrives_nested hn .nil rfl (halts_nil _) hbefore (by omega) hdepth
  exact ofSourceWith_of_oneStatement hroom hw
    (leadsTo_lastExpression hw hk rfl ⟨after, hx, hm, hb.facing⟩)

/-- Under a limit that is too low, the program fails for it: at once if it allows no construct at all,
and else in the statement. -/
theorem ofSourceWith_tooDeep (hn : IsPlainName name.toList) (hs : IsSteadyName name.toList ∨ 0 < count)
    (hd : options.maxDepth < count + 2) :
    ∃ error, Node.ofSourceWith options (nestedSource count name) = .error (.rejected error) ∧
      error.code = 1202 := by
  let start : Parser := (Parser.started (nestedSource count name) options).inStatement
  have hbefore : start.Before false (nestedText count name.toList) := before_nestedSource hn
  obtain ⟨word, hw, hk⟩ := exists_word_nested hn hs hbefore
  rw [← List.append_nil (nestedText count name.toList)] at hbefore
  cases hroom : options.maxDepth with
  | zero =>
    have hfull : (Parser.started (nestedSource count name) options).options.maxDepth ≤
        (Parser.started (nestedSource count name) options).context.length := Nat.le_of_eq hroom
    exact ⟨_, ofSourceWith_of_error hw (run_within_full hfull), rfl⟩
  | succ room =>
    have hlimit : start.options.maxDepth = room + 1 := hroom
    have hdepth : start.options.maxDepth ≤ start.context.length + count := by
      change options.maxDepth ≤ 1 + count
      omega
    obtain ⟨error, after, hx, hcode⟩ :
        ∃ error after, operandAt (goal arrowAhead room) .expressionStatement .expression start =
          .error (.rejected error) after ∧ error.code = 1202 :=
      tooDeep_nested hn rfl hbefore (Nat.le_of_eq hlimit) hdepth
    have hstatement : goal arrowAhead options.maxDepth .statement start =
        .error (.rejected error) after := by
      rw [hroom]
      refine (run_statement_expression hw hk).trans ?_
      rw [expressionStatement, run_bind, hx]
    have hroom' : (Parser.started (nestedSource count name) options).context.length <
        (Parser.started (nestedSource count name) options).options.maxDepth := by
      change 0 < options.maxDepth
      omega
    exact ⟨error, ofSourceWith_of_error hw (run_within_error hroom' hstatement), hcode⟩

/-- A misread name in parentheses is not read under any limit. -/
theorem ofSourceWith_nestedSource_ne (hn : IsPlainName name.toList) (hs : ¬IsSteadyName name.toList)
    (hd : count + 2 ≤ options.maxDepth) :
    Node.ofSourceWith options (nestedSource count name) ≠
      .ok (.program [.expressionStatement (.identifier name)]) := by
  cases count with
  | zero =>
    have htext : (nestedSource 0 name).toList = name.toList ++ [] := by
      rw [toList_nestedSource, nestedText_zero, List.append_nil]
    exact ofSourceWith_ne_of_misread htext (hn.misread hs) hn.isName .nil _
  | succ count =>
    let start : Parser := (Parser.started (nestedSource (count + 1) name) options).inStatement
    obtain ⟨room, hroom⟩ : ∃ room, options.maxDepth = room + 1 := ⟨options.maxDepth - 1, by omega⟩
    have hbefore : start.Before false (nestedText (count + 1) name.toList) := before_nestedSource hn
    obtain ⟨word, hw, hk⟩ := exists_word_nested hn (Or.inr (Nat.succ_pos count)) hbefore
    rw [← List.append_nil (nestedText _ _)] at hbefore
    have hfails : Fails (operandAt (goal arrowAhead room) .expressionStatement .expression) start :=
      fails_nested hn hs rfl hbefore (by omega)
    have hstatement : Fails (expressionStatement (goal arrowAhead room)) start := hfails.bind _
    exact ofSourceWith_ne_of_fails hroom hw (hstatement.of_eq (run_statement_expression hw hk)) _

/-- The least limit on constructs under which a name in parentheses is read is known: one for each
pair of parentheses and two more. Under that limit, and every higher one, the program is the name, if it
is not misread; under every lower one, the parse fails for the limit. -/
theorem ofSourceWith_nestedSource_iff (hn : IsPlainName name.toList) (count : Nat)
    (options : ParserOptions) :
    (count + 2 ≤ options.maxDepth →
      (Node.ofSourceWith options (nestedSource count name) =
        .ok (.program [.expressionStatement (.identifier name)]) ↔ IsSteadyName name.toList)) ∧
    (options.maxDepth < count + 2 → IsSteadyName name.toList ∨ 0 < count →
      ∃ error, Node.ofSourceWith options (nestedSource count name) = .error (.rejected error) ∧
        error.code = 1202) := by
  refine ⟨fun hd => ⟨fun hparse => ?_, fun hs => ofSourceWith_nestedSource hs hd⟩,
    fun hd hs => ofSourceWith_tooDeep hn hs hd⟩
  by_contra hs
  exact ofSourceWith_nestedSource_ne hn hs hd hparse

/-- Three pairs of parentheses need a limit of five, and no limit helps a misread name. -/
theorem ofSourceWith_nestedSource_three :
    Node.ofSourceWith { maxDepth := 5 } "(((a)))" =
        .ok (.program [.expressionStatement (.identifier "a")]) ∧
      (∃ error, Node.ofSourceWith { maxDepth := 4 } "(((a)))" = .error (.rejected error) ∧
        error.code = 1202) ∧
      Node.ofSource "(async\u200cfunction)" ≠
        .ok (.program [.expressionStatement (.identifier "async\u200cfunction")]) := by
  have ha : IsSteadyName "a".toList := IsPlainName.steady_of_any (by decide) (by decide)
  refine ⟨?_, ?_, fun hparse => ?_⟩
  · exact ((ofSourceWith_nestedSource_iff ha.plain 3 { maxDepth := 5 }).1 (by decide)).mpr ha
  · exact (ofSourceWith_nestedSource_iff ha.plain 3 { maxDepth := 4 }).2 (by decide) (Or.inl ha)
  · obtain ⟨hplain, hno⟩ := misread_asyncFunction
    exact hno (((ofSourceWith_nestedSource_iff hplain 1 {}).1 (by decide)).mp hparse)

end Programs

end ScriptTree
