import ScriptTree.Proofs.FormulaPlaces

/-!
Lists of formulas with commas between them: in parentheses, as arguments, and as sequences.
-/

namespace ScriptTree

namespace ParserM

/-- A text is read as a formula in a place, unless a space follows a word at its end. There has to be
room for as many constructs as the text has characters. -/
def Reads (place : Place) (ends : Bool) (text : List Char) (node : Node) : Prop :=
  ReadsAs text.length place.Suits (place.Allows ends) text node

theorem Reads.mono {place other : Place} {ends ends' : Bool} {text : List Char} {node : Node}
    (h : Reads place ends text node) (hr : other.rank ≤ place.rank)
    (he : ∀ rest, other.Allows ends' rest → ends = true → ∀ c ∈ rest.head?, isSpace c = false) :
    Reads other ends' text node :=
  ReadsAs.mono h (Nat.le_refl _) (fun _ hs => hs.mono hr) fun rest hf => ⟨hf.1.mono hr, he rest hf⟩

/-- A text for a formula in a place: it is read as the formula, and can be told from white space
before it. -/
structure Stands (place : Place) (ends : Bool) (text : List Char) (node : Node) : Prop where
  reads : Reads place ends text node
  starts : Node.StartsWith (fun c => isSpace c = false) text

theorem Stands.head_not_space {place : Place} {ends : Bool} {text : List Char} {node : Node}
    (h : Stands place ends text node) (rest : List Char) :
    ∀ c ∈ (text ++ rest).head?, isSpace c = false := by
  obtain ⟨c, text, rfl, hc⟩ := h.starts
  rintro _ ⟨⟩
  exact hc

/-- A text that is an item of a list, with the formula it is read as. -/
def Item (entry : List Char × Node) : Prop := Stands .item false entry.1 entry.2

/-- Texts with commas between them. -/
def joined (entries : List (List Char × Node)) : List Char :=
  [',', ' '].intercalate (entries.map Prod.fst)

theorem joined_singleton (entry : List Char × Node) : joined [entry] = entry.1 := by
  simp [joined]

theorem joined_cons_cons (entry next : List Char × Node) (entries : List (List Char × Node)) :
    joined (entry :: next :: entries) = entry.1 ++ ',' :: ' ' :: joined (next :: entries) := by
  simp [joined]

theorem length_le_joined {entries : List (List Char × Node)} (h : ∀ entry ∈ entries, Item entry) :
    entries.length ≤ (joined entries).length := by
  induction entries with
  | nil => exact Nat.zero_le _
  | cons entry entries ih =>
    have hn := ih fun other hm => h other (List.mem_cons_of_mem _ hm)
    obtain ⟨c, rest, hr, -⟩ := (h entry List.mem_cons_self).starts
    cases entries with
    | nil => simp [joined_singleton, hr]
    | cons next entries =>
      rw [joined_cons_cons, List.length_append, List.length_cons, List.length_cons]
      simp only [List.length_cons] at hn ⊢
      omega

theorem joined_head_not_space {entries : List (List Char × Node)} {entry : List Char × Node}
    (h : Item entry) (rest : List Char) :
    ∀ c ∈ (joined (entry :: entries) ++ rest).head?, isSpace c = false := by
  cases entries with
  | nil =>
    rw [joined_singleton]
    exact h.head_not_space rest
  | cons next entries =>
    rw [joined_cons_cons, List.append_assoc]
    exact h.head_not_space _

/-- An operand that is read in a frame starts as an expression does. -/
theorem ReadsAs.atExpression {needed room : Nat} {suits : Frame → Prop}
    {follows : List Char → Prop} {text rest : List Char} {operand : Node} {parser : Parser}
    {afterOperand : Bool} {frame : Frame} (h : ReadsAs needed suits follows text operand)
    (hb : parser.Before afterOperand (text ++ rest)) (hf : follows rest) (hs : suits frame)
    (hr : needed ≤ room) (hd : parser.context.length + needed < parser.options.maxDepth) :
    parser.AtExpression := by
  obtain ⟨⟨kind, precedence, value, behind, hon, hk⟩, -⟩ := h room
    { parser with context := frame :: parser.context } afterOperand rest frame parser.context
    (hb.enter frame) hf rfl hs hr (by simp only [List.length_cons]; omega)
  exact ⟨kind, precedence, value, behind, ⟨hon.shows, hon.answers, hon.arrowFree, hon.budget⟩, hk⟩

theorem run_isAt_of_atExpression {parser : Parser} {other : TokenKind} (h : parser.AtExpression)
    (ho : other.startsExpression = false) : isAt other parser = .ok false parser := by
  obtain ⟨kind, _, _, _, hon, hk⟩ := h
  have hne : (kind == other) = false := by
    rw [beq_eq_false_iff_ne]
    rintro rfl
    rw [hk] at ho
    cases ho
  rw [run_isAt_of_on hon, hne]

/-- A frame for the items of a list, which is closed by a mark. -/
structure Lists (frame : Frame) (c : Char) (close : TokenKind) : Prop where
  loose : frame ∈ Frame.loose
  claims : frame.claimsComma = true
  mark : (c, close) ∈ marks
  closer : c ∈ closers
  other : close ≠ .comma
  opens : close.startsExpression = false

/-- An item is read up to what follows it, and does not look like the end of the list. -/
theorem Item.arrives {frame : Frame} {c : Char} {close : TokenKind} {entry : List Char × Node}
    {parser : Parser} {afterOperand : Bool} {rest : List Char} (h : Item entry) (room : Nat)
    (hl : Lists frame c close) (hb : parser.Before afterOperand (entry.1 ++ rest))
    (hf : Place.item.Follows rest) (hroom : entry.1.length < room)
    (hd : parser.context.length + entry.1.length < parser.options.maxDepth) :
    isAt close parser = .ok false parser ∧
      Arrives (within frame (goal arrowAhead room .operand)) parser entry.2 true rest :=
  ⟨run_isAt_of_atExpression
      (ReadsAs.atExpression h.reads hb ⟨hf, nofun⟩ hl.loose (Nat.le_of_lt hroom) hd) hl.opens,
    ReadsAs.arrives h.reads hb ⟨hf, nofun⟩ hl.loose (halts_closer hl.claims hf) hroom hd⟩

/-- Items up to a closing mark, by induction on the list. -/
theorem arrives_commaList {frame : Frame} {c : Char} {close : TokenKind} (hl : Lists frame c close)
    {entries : List (List Char × Node)} (h : ∀ entry ∈ entries, Item entry) {room rounds : Nat}
    {parser : Parser} {afterOperand : Bool} {rest : List Char}
    (hb : parser.Before afterOperand (joined entries ++ c :: rest)) (hr : entries.length < rounds)
    (hroom : (joined entries).length < room)
    (hd : parser.context.length + (joined entries).length < parser.options.maxDepth) :
    ∃ afterOperand', Arrives (commaList close (within frame (goal arrowAhead room .operand)) rounds)
      parser (entries.map Prod.snd) afterOperand' (c :: rest) := by
  induction entries generalizing parser afterOperand rounds with
  | nil =>
    obtain ⟨rounds, rfl⟩ := Nat.exists_eq_succ_of_ne_zero (Nat.ne_zero_of_lt hr)
    refine ⟨afterOperand, parser, ?_, .refl parser, hb⟩
    simp only [commaList, run_bind, run_isAt_of_on (hb.on_mark hl.mark), beq_self_eq_true, if_true,
      run_pure, List.map_nil]
  | cons entry entries ih =>
    obtain ⟨rounds, rfl⟩ := Nat.exists_eq_succ_of_ne_zero (Nat.ne_zero_of_lt hr)
    have hentry := h entry List.mem_cons_self
    cases entries with
    | nil =>
      rw [joined_singleton] at hb hroom hd
      obtain ⟨hat, p₁, h₁, m₁, b₁⟩ := hentry.arrives room hl hb ⟨c, hl.closer, rfl⟩ hroom hd
      refine ⟨true, p₁, ?_, m₁, b₁⟩
      simp only [commaList, run_bind, hat, Bool.false_eq_true, if_false, h₁,
        run_accept_of_ne (b₁.on_mark hl.mark) hl.other, run_pure, List.map_cons, List.map_nil]
    | cons next entries =>
      have hnext := h next (List.mem_cons_of_mem _ List.mem_cons_self)
      have hcomma : (',', TokenKind.comma) ∈ marks := by decide
      rw [joined_cons_cons, List.append_assoc] at hb
      simp only [joined_cons_cons, List.length_append, List.length_cons] at hroom hd
      have hr' : (next :: entries).length < rounds := Nat.lt_of_succ_lt_succ hr
      obtain ⟨hat, p₁, h₁, m₁, b₁⟩ := hentry.arrives room hl hb ⟨',', by decide, rfl⟩ (by omega)
        (by omega)
      obtain ⟨p₂, h₂, m₂, b₂⟩ := arrives_accept (b₁.on_mark hcomma)
      have m₂' := m₁.trans m₂
      obtain ⟨afterOperand', p₃, h₃, m₃, b₃⟩ := ih
        (fun other hm => h other (List.mem_cons_of_mem _ hm))
        (b₂.skip (Or.inl rfl) (joined_head_not_space hnext _)) hr' (by omega)
        (by rw [m₂'.context, m₂'.options]; omega)
      refine ⟨afterOperand', p₃, ?_, m₂'.trans m₃, b₃⟩
      simp only [commaList, run_bind, hat, Bool.false_eq_true, if_false, h₁, h₂, if_true, h₃, run_pure,
        List.map_cons]

/-- A list up to its closing mark, and over it. -/
theorem arrives_closedList {frame : Frame} {c : Char} {close : TokenKind} (hl : Lists frame c close)
    {entries : List (List Char × Node)} (h : ∀ entry ∈ entries, Item entry) {room : Nat}
    {parser : Parser} {afterOperand : Bool} {rest : List Char}
    (hb : parser.Before afterOperand (joined entries ++ c :: rest))
    (hroom : (joined entries).length < room)
    (hd : parser.context.length + (joined entries).length < parser.options.maxDepth) :
    Arrives (closedList close (within frame (goal arrowAhead room .operand))) parser
      (entries.map Prod.snd) close.closesOperand rest := by
  have hlen := length_le_joined h
  have hbudget := hb.budget
  rw [List.length_append] at hbudget
  have hr : entries.length < parser.budget := by omega
  obtain ⟨afterOperand', p₁, h₁, m₁, b₁⟩ := arrives_commaList hl h hb hr hroom hd
  obtain ⟨p₂, h₂, m₂, b₂⟩ := arrives_require (b₁.on_mark hl.mark)
  refine ⟨p₂, ?_, m₁.trans m₂, b₂⟩
  simp only [closedList, run_bind, run_budget, h₁, h₂, run_pure]

/-- A list that is not empty does not look closed where it starts. -/
theorem run_isAt_joined {frame : Frame} {c : Char} {close : TokenKind} (hl : Lists frame c close)
    {entry : List Char × Node} {entries : List (List Char × Node)} (h : Item entry) {parser : Parser}
    {afterOperand : Bool} {rest : List Char}
    (hb : parser.Before afterOperand (joined (entry :: entries) ++ c :: rest))
    (hd : parser.context.length + (joined (entry :: entries)).length < parser.options.maxDepth) :
    isAt close parser = .ok false parser := by
  cases entries with
  | nil =>
    rw [joined_singleton] at hb hd
    exact (h.arrives _ hl hb ⟨c, hl.closer, rfl⟩ (Nat.lt_succ_self _) hd).1
  | cons next entries =>
    rw [joined_cons_cons, List.append_assoc] at hb
    rw [joined_cons_cons, List.length_append] at hd
    exact (h.arrives _ hl hb ⟨',', by decide, rfl⟩ (Nat.lt_succ_self _) (by omega)).1

/-- What a list in parentheses stands for. -/
def ofItems : List Node → Node
  | [expression] => expression
  | expressions => .sequence expressions

theorem lists_parentheses : Lists .parentheses ')' .closeParen :=
  ⟨by decide, rfl, by decide, by decide, nofun, rfl⟩

theorem lists_arguments : Lists (.filling .callExpression .arguments) ')' .closeParen :=
  ⟨by decide, rfl, by decide, by decide, nofun, rfl⟩

/-- Items in parentheses are an operand wherever they stand. -/
theorem readsAs_parens {entry : List Char × Node} {entries : List (List Char × Node)}
    (h : ∀ item ∈ entry :: entries, Item item) :
    ReadsAs ((joined (entry :: entries)).length + 2) (fun frame => frame.isEnclosing = true)
      (fun _ => True) ('(' :: (joined (entry :: entries) ++ [')']))
      (ofItems ((entry :: entries).map Prod.snd)) := by
  refine readsAs_of_fresh (fun _ h => h) fun room parser afterOperand rest hb _ hr hd => ?_
  have hopen : ('(', TokenKind.openParen) ∈ marks := by decide
  rw [List.cons_append, List.append_assoc] at hb
  have hon := hb.on_mark hopen
  obtain ⟨word, ht, hw, hk, -⟩ := run_token_of_on hon
  obtain ⟨answers, ha, hno⟩ := run_arrowAhead_of_arrowFree hon.answers
    (hon.shows.rest.symm ▸ hon.arrowFree)
  have hon' : Parser.On { parser with arrowAnswers := answers } .openParen none ['('] _ :=
    ⟨hon.shows, hno, hon.arrowFree, hon.budget⟩
  obtain ⟨p₁, h₁, m₁, b₁⟩ := arrives_nextToken hon'
  have m₁' : parser.Moved p₁ := Parser.Moved.trans ⟨_, _, rfl⟩ m₁
  have hd' : p₁.context.length + (joined (entry :: entries)).length < p₁.options.maxDepth := by
    rw [m₁'.context, m₁'.options]
    omega
  have hat := run_isAt_joined lists_parentheses (h entry List.mem_cons_self) b₁ hd'
  have hroom : (joined (entry :: entries)).length < room := by omega
  obtain ⟨p₂, h₂, m₂, b₂⟩ := arrives_closedList lists_parentheses h b₁ hroom hd'
  refine ⟨⟨_, _, _, _, hon, rfl⟩, p₂, ?_, m₁'.trans m₂, b₂⟩
  simp only [fresh, run_bind, ht, opening, hk, openingParen, ha, Bool.false_eq_true, if_false,
    parenthesized, h₁, hat, h₂]
  cases entries with
  | nil => rfl
  | cons next entries => rfl

/-- The texts of further items, each behind a comma. -/
def trailing (entries : List (List Char × Node)) : List Char :=
  entries.flatMap fun entry => ',' :: ' ' :: entry.1

theorem trailing_cons (entry : List Char × Node) (entries : List (List Char × Node)) :
    trailing (entry :: entries) = ',' :: ' ' :: (entry.1 ++ trailing entries) := by
  simp [trailing]

theorem joined_cons (entry : List Char × Node) (entries : List (List Char × Node)) :
    joined (entry :: entries) = entry.1 ++ trailing entries := by
  induction entries generalizing entry with
  | nil => simp [joined_singleton, trailing]
  | cons next entries ih => rw [joined_cons_cons, ih, trailing_cons]

theorem length_le_trailing (entries : List (List Char × Node)) :
    entries.length ≤ (trailing entries).length := by
  induction entries with
  | nil => exact Nat.le_refl _
  | cons entry entries ih =>
    simp only [trailing_cons, List.length_cons, List.length_append]
    omega

/-- The further items of a sequence, up to the end of the statement. -/
theorem arrives_sequenceRest {entries : List (List Char × Node)} (h : ∀ entry ∈ entries, Item entry)
    {room rounds : Nat} {parser : Parser} {rest : List Char}
    (hb : parser.Before true (trailing entries ++ ';' :: rest)) (hr : entries.length < rounds)
    (hroom : (trailing entries).length ≤ room)
    (hd : parser.context.length + (trailing entries).length ≤ parser.options.maxDepth) :
    Arrives (sequenceRest (goal arrowAhead room) rounds) parser (entries.map Prod.snd) true
      (';' :: rest) := by
  induction entries generalizing parser rounds with
  | nil =>
    obtain ⟨rounds, rfl⟩ := Nat.exists_eq_succ_of_ne_zero (Nat.ne_zero_of_lt hr)
    have hsemi : (';', TokenKind.semicolon) ∈ marks := by decide
    have hon : parser.On .semicolon none [';'] rest := hb.on_mark hsemi
    have ha : accept .comma parser = .ok false parser := run_accept_of_ne hon (by decide)
    refine ⟨parser, ?_, .refl parser, hb⟩
    simp only [sequenceRest, run_bind, ha, Bool.false_eq_true, if_false, run_pure, List.map_nil]
  | cons entry entries ih =>
    obtain ⟨rounds, rfl⟩ := Nat.exists_eq_succ_of_ne_zero (Nat.ne_zero_of_lt hr)
    have hentry := h entry List.mem_cons_self
    have hcomma : (',', TokenKind.comma) ∈ marks := by decide
    have hloose : .filling .sequenceExpression .expressions ∈ Frame.loose := by decide
    have hf : Place.item.Follows (trailing entries ++ ';' :: rest) := by
      cases entries with
      | nil => exact ⟨';', by decide, rfl⟩
      | cons next entries => exact ⟨',', by decide, rfl⟩
    rw [trailing_cons, List.cons_append, List.cons_append, List.append_assoc] at hb
    simp only [trailing_cons, List.length_cons, List.length_append] at hroom hd
    obtain ⟨p₁, h₁, m₁, b₁⟩ := arrives_accept (hb.on_mark hcomma)
    have b₁' := b₁.skip (Or.inl rfl) (hentry.head_not_space _)
    obtain ⟨p₂, h₂, m₂, b₂⟩ : Arrives
        (operandAt (goal arrowAhead room) .sequenceExpression .expressions) p₁ entry.2 true
        (trailing entries ++ ';' :: rest) :=
      ReadsAs.arrives hentry.reads b₁' ⟨hf, nofun⟩ hloose (halts_closer rfl hf) (by omega)
        (by rw [m₁.context, m₁.options]; omega)
    have m₂' := m₁.trans m₂
    obtain ⟨p₃, h₃, m₃, b₃⟩ := ih (fun other hm => h other (List.mem_cons_of_mem _ hm)) b₂
      (Nat.lt_of_succ_lt_succ hr) (by omega) (by rw [m₂'.context, m₂'.options]; omega)
    refine ⟨p₃, ?_, m₂'.trans m₃, b₃⟩
    simp only [sequenceRest, run_bind, h₁, if_true, h₂, h₃, run_pure, List.map_cons]

end ParserM

end ScriptTree
