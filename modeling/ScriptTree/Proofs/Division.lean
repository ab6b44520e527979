import ScriptTree.Proofs.AssignedOperand
import ScriptTree.Proofs.LastCharacter
import ScriptTree.Proofs.MarkedNames

/-!
Division behind an operand.

A slash behind an operand divides it if the token before the slash is taken for the end of an operand,
and begins a regular expression otherwise. Of the tokens that an operand can end with, only the closing
brace is not taken for the end of one.
-/

namespace ScriptTree

/-- An operand divided by names, from left to right. -/
def quotient (operand : Node) (names : List String) : Node :=
  names.foldl (fun left name => .binary (Operator.role "/") "/" left (.identifier name)) operand

theorem sizeOf_le_quotient (operand : Node) (names : List String) :
    sizeOf operand ≤ sizeOf (quotient operand names) := by
  induction names generalizing operand with
  | nil => exact le_rfl
  | cons name names ih =>
    refine le_trans ?_ (ih _)
    simp only [Node.binary.sizeOf_spec]
    omega

theorem quotient_ne {operand : Node} {names : List String} (h : names ≠ []) :
    quotient operand names ≠ operand := by
  obtain ⟨name, names, rfl⟩ := List.exists_cons_of_ne_nil h
  intro he
  have hsize := sizeOf_le_quotient (.binary (Operator.role "/") "/" operand (.identifier name)) names
  have hsame : sizeOf (quotient (.binary (Operator.role "/") "/" operand (.identifier name)) names) =
      sizeOf operand := congrArg sizeOf he
  rw [hsame, Node.binary.sizeOf_spec] at hsize
  omega

/-- What is written behind an operand to divide it by names. -/
def divisors (names : List String) : List Char := Chain.tail (names.map fun name => ("/", name))

theorem divisors_cons (name : String) (names : List String) :
    divisors (name :: names) = ' ' :: '/' :: ' ' :: (name.toList ++ divisors names) := by
  simp [divisors, Chain.tail]

theorem begins_divided {name : List Char} (h : IsSteadyName name) (names : List String)
    (afterOperand : Bool) : Begins .default afterOperand .identifierName none name (divisors names) := by
  cases names with
  | nil => exact begins_name h.plain rfl (fun _ _ _ => rfl) h.whole afterOperand
  | cons next names =>
    rw [divisors_cons]
    exact begins_steadyName_of_head h rfl rfl (by decide) (by decide) afterOperand

/-- Text in which nothing ends or hides a slash, up to one, is the body of a regular expression. -/
theorem regexBody?_of_forall {body : List Char}
    (h : ∀ c ∈ body, c ∉ ['\\', '\n', '\r', '[', ']', '/']) (rest : List Char) :
    Scan.regexBody? false (body ++ '/' :: rest) = some body := by
  induction body with
  | nil => rfl
  | cons c body ih =>
    have hc := h c List.mem_cons_self
    simp only [List.mem_cons, List.not_mem_nil, or_false, not_or] at hc
    obtain ⟨hescape, hfeed, hreturn, hopen, hclose, hslash⟩ := hc
    have hbody := ih fun d hd => h d (List.mem_cons_of_mem _ hd)
    rw [List.cons_append, Scan.regexBody?.eq_3 _ _ _ fun _ _ hc _ => hescape hc]
    simp [hescape, hfeed, hreturn, hopen, hclose, hslash, hbody]

/-- Between slashes, and before a space, it is a regular expression. -/
theorem regex_of_forall {body : List Char} (hne : body ≠ [])
    (h : ∀ c ∈ body, c ∉ ['\\', '\n', '\r', '[', ']', '/']) (rest : List Char) :
    Scan.regex ('/' :: (body ++ ['/'] ++ ' ' :: rest)) = some (.whole ('/' :: (body ++ ['/']))) := by
  have hflag : isRegexFlag ' ' = false := rfl
  have hbody := regexBody?_of_forall h (' ' :: rest)
  obtain ⟨c, body, rfl⟩ := List.exists_cons_of_ne_nil hne
  simp only [List.append_assoc, List.singleton_append, Scan.regex, hbody]
  simp [hflag]

/-- The rule for regular expressions. -/
def Rule.regularExpression : Rule :=
  { Rule.form .regexLiteral .regex with afterOperand := false }

/-- Where no operand has ended, two slashes with a name between them are a regular expression. -/
theorem begins_regex {name : List Char} (hn : IsName name) (rest : List Char) :
    Begins .default false .regexLiteral none ('/' :: (' ' :: (name ++ [' ']) ++ ['/'])) (' ' :: rest) := by
  have hplain : ∀ c ∈ ' ' :: (name ++ [' ']), c ∉ ['\\', '\n', '\r', '[', ']', '/'] := by
    intro c hc
    rw [List.mem_cons, List.mem_append, List.mem_singleton] at hc
    rcases hc with rfl | hc | rfl
    · decide
    · intro hin
      have hpart := hn.part c hc
      simp only [List.mem_cons, List.not_mem_nil, or_false] at hin
      rcases hin with rfl | rfl | rfl | rfl | rfl | rfl <;> exact absurd hpart (by decide)
    · decide
  have hregex := regex_of_forall (List.cons_ne_nil _ _) hplain rest
  let text : List Char := '/' :: (' ' :: (name ++ [' ']) ++ ['/'] ++ ' ' :: rest)
  have hmatch : Rule.regularExpression.match? text =
      some (Rule.regularExpression, .whole ('/' :: (' ' :: (name ++ [' ']) ++ ['/']))) := by
    have happly : Rule.regularExpression.pattern.apply text = _ := hregex
    rw [Rule.match?, happly]
    rfl
  -- a space behind the slash begins no comment
  have hblock : (Rule.form .comment .blockComment).match? text = none := rfl
  have hline : (Rule.form .comment .lineComment).match? text = none := rfl
  have happlies : Rule.regularExpression.appliesIn .default false = true := rfl
  have hfound : ([Rule.form .comment .blockComment, Rule.form .comment .lineComment,
      Rule.regularExpression, Rule.compoundAssignment, Rule.product].findSome? fun rule =>
        if rule.appliesIn .default false then rule.match? text else none) =
        some (Rule.regularExpression, .whole ('/' :: (' ' :: (name ++ [' ']) ++ ['/']))) := by
    simp only [List.findSome?_cons, hblock, hline, ite_self, happlies, if_true, hmatch]
  exact begins_of_lookup rfl hfound rfl rfl

namespace ParserM

variable {parser : Parser} {afterOperand : Bool} {names : List String}

theorem slash_mem_binaries : "/" ∈ Operator.binaries.map Prod.fst := by
  rw [Operator.binaries_eq]
  decide

theorem shows_slash {name : String}
    (h : parser.lexer.Facing .default true (divisors (name :: names))) :
    parser.lexer.Shows .operator (some (Operator.strength "/")) "/".toList false
      (' ' :: (name.toList ++ divisors names)) :=
  Lexer.Facing.shows_operator h slash_mem_binaries

theorem halts_divisors (names : List String) :
    Halts (.filling .binaryExpression .operand) (divisors names) := by
  apply halts_tail
  intro operator name others he
  have hmem : (operator, name) ∈ names.map fun name => ("/", name) := he ▸ List.mem_cons_self
  obtain ⟨_, -, heq⟩ := List.mem_map.mp hmem
  rw [← (Prod.mk.inj heq).1]
  exact slash_mem_binaries

/-- The operator that comes next is a slash, or there is none. -/
theorem run_binaryOperator_divisors (h : parser.lexer.Facing .default true (divisors names)) :
    binaryOperator? parser = .ok (names.head?.map fun _ => ("/", Operator.strength "/")) parser := by
  cases names with
  | nil => simp only [binaryOperator?, run_bind, run_current, h.current_nil.1, run_pure]; rfl
  | cons name names =>
    obtain ⟨word, hw, hk, hv, hp⟩ := (shows_slash h).token
    simp only [binaryOperator?, run_bind, run_current, hw,
      binaryStrength?_eq_some slash_mem_binaries hk hp, Option.map_some, run_pure, hv,
      String.ofList_toList, List.head?_cons]

/-- Division groups from the left: a right operand takes no slash behind it. -/
theorem run_absorb_divisors {sub : Goal → ParserM Node} {right : Node} {rounds : Nat}
    (h : parser.lexer.Facing .default true (divisors names)) (hr : 0 < rounds) :
    absorb sub right (Operator.strength "/") rounds parser = .ok right parser := by
  obtain ⟨rounds, rfl⟩ : ∃ n, rounds = n + 1 := ⟨rounds - 1, by omega⟩
  have hleft : Operator.groupsRight "/" = false := by decide
  cases names with
  | nil => simp only [absorb, run_bind, run_binaryOperator_divisors h, List.head?_nil, Option.map_none, run_pure]
  | cons name names =>
    simp only [absorb, run_bind, run_binaryOperator_divisors h, List.head?_cons, Option.map_some,
      Nat.lt_irrefl, hleft, Bool.false_eq_true, and_false, if_false, run_pure]

/-- The slashes behind an operand are taken one after the other, by induction on the names behind
them. -/
theorem leadsTo_takeOperators (hn : ∀ name ∈ names, IsSteadyName name.toList) {left : Node}
    (h : parser.lexer.Facing .default true (divisors names)) (room : Nat) {rounds : Nat}
    (hr : names.length < rounds) (hb : 0 < parser.budget)
    (hd : parser.context.length < parser.options.maxDepth) :
    LeadsTo (takeOperators (goal arrowAhead (room + 1)) left Operator.leastStrength rounds) parser
      (quotient left names) true [] := by
  induction names generalizing parser left rounds with
  | nil =>
    obtain ⟨rounds, rfl⟩ : ∃ n, rounds = n + 1 := ⟨rounds - 1, by omega⟩
    refine ⟨parser, ?_, .refl parser, h⟩
    simp only [takeOperators, run_bind, run_binaryOperator_divisors h, List.head?_nil, Option.map_none,
      run_pure]
    rfl
  | cons name names ih =>
    obtain ⟨rounds, rfl⟩ : ∃ n, rounds = n + 1 := ⟨rounds - 1, by omega⟩
    have hname := hn name List.mem_cons_self
    have hleast : ¬Operator.strength "/" < Operator.leastStrength := by decide
    obtain ⟨p₁, h₁, m₁, f₁⟩ := leadsTo_nextToken (shows_slash h)
    have f₁' := f₁.skip (Or.inl rfl) (hname.plain.isName.head_not_space _)
    have hs : p₁.lexer.Shows .identifierName none name.toList true (divisors names) :=
      f₁'.shows (begins_divided hname names false) rfl (isUpdateSpelling_name hname.plain.isName)
    obtain ⟨p₂, h₂, m₂, f₂⟩ : LeadsTo (operandAt (goal arrowAhead (room + 1)) .binaryExpression .operand)
        p₁ (.identifier name) true (divisors names) :=
      leadsTo_nameOperand hs rfl (halts_divisors names) room (by rw [m₁.budget]; exact hb)
        (by rw [m₁.context, m₁.options]; exact hd)
    have m₂' := m₁.trans m₂
    have h₃ : absorb (goal arrowAhead (room + 1)) (.identifier name) (Operator.strength "/") rounds p₂ =
        .ok (.identifier name) p₂ := run_absorb_divisors f₂ (by simp only [List.length_cons] at hr; omega)
    obtain ⟨p₄, h₄, m₄, f₄⟩ : LeadsTo (takeOperators (goal arrowAhead (room + 1))
        (.binary (Operator.role "/") "/" left (.identifier name)) Operator.leastStrength rounds) p₂
        (quotient left (name :: names)) true [] :=
      ih (fun other hm => hn other (List.mem_cons_of_mem name hm)) f₂ (Nat.lt_of_succ_lt_succ hr)
        (by rw [m₂'.budget]; exact hb) (by rw [m₂'.context, m₂'.options]; exact hd)
    refine ⟨p₄, ?_, m₂'.trans m₄, f₄⟩
    simp only [takeOperators, run_bind, run_binaryOperator_divisors h, List.head?_cons, Option.map_some,
      if_neg hleast, h₁, h₂, h₃, h₄]

/-- A slash continues each operand on the right of an assignment. -/
theorem admits_slash {outer : Context} {operand : Node} {word : Token} (hk : word.kind = .operator)
    (hv : word.value = "/") (hp : word.precedence = some (Operator.strength "/")) :
    Context.admits (.filling .assignmentExpression .right :: outer) operand word = true := by
  have hstrength := binaryStrength?_eq_some slash_mem_binaries hk hp
  have hupdate : Operator.isUpdate "/" = false := by decide
  have hframe : (Frame.filling .assignmentExpression .right).admitsBinary "/" = true := by decide
  simp only [Context.admits, hk, hv, hupdate, Bool.false_eq_true, if_false, hstrength, Option.isSome_some,
    hframe, Bool.and_self]

/-- On the right of an assignment, nothing that stands for a value is complete. -/
theorem isComplete_right {outer : Context} {operand : Node} (h : operand.isExpression = true) :
    Context.isComplete (.filling .assignmentExpression .right :: outer) operand = false := by
  unfold Context.isComplete
  split
  · rfl
  · rename_i hclass
    by_contra hs
    have hc := Node.isClass_of_isExpression h (by simpa using hs)
    unfold Node.isClass at hc
    split at hc
    · exact hclass _ _ _ rfl
    · cases hc

/-- An operand on the right of an assignment is divided by all names behind it. -/
theorem leadsTo_quotient (hn : ∀ name ∈ names, IsSteadyName name.toList) {outer : Context}
    {operand : Node} (ho : operand.isExpression = true)
    (hc : parser.context = .filling .assignmentExpression .right :: outer)
    (h : parser.lexer.Facing .default true (divisors names)) (room : Nat) {rounds : Nat}
    (hr : names.length < rounds) (hb : names.length < parser.budget)
    (hd : parser.context.length + 1 < parser.options.maxDepth) :
    LeadsTo (extend arrowAhead (goal arrowAhead (room + 1)) operand rounds) parser
      (quotient operand names) true [] := by
  cases names with
  | nil =>
    exact ⟨parser, extend_stops (current_none_of_nil h) (Nat.zero_lt_of_lt hr), .refl parser, h⟩
  | cons name names =>
    obtain ⟨rounds, rfl⟩ : ∃ n, rounds = n + 1 := ⟨rounds - 1, by omega⟩
    obtain ⟨word, hw, hk, hv, hp⟩ := (shows_slash h).token
    rw [String.ofList_toList] at hv
    have hstep : extend arrowAhead (goal arrowAhead (room + 1)) operand (rounds + 1) parser = _ :=
      run_extend_step rounds hw (by rw [hc]; exact isComplete_right ho) (by rw [hc]; exact admits_slash hk hv hp)
        (Nat.lt_of_succ_lt hd)
    let inside : Parser := { parser with context := .extending operand.kind :: parser.context }
    have hinside : inside.lexer.Facing .default true (divisors (name :: names)) := h
    have hbudget : (name :: names).length < inside.budget := hb
    have hupdate : Operator.isUpdate "/" = false := by decide
    have hfollowing : LeadsTo (extension (goal arrowAhead (room + 1)) word.kind operand) inside
        (quotient operand (name :: names)) true [] := by
      refine (leadsTo_takeOperators hn hinside room hbudget (Nat.zero_lt_of_lt hbudget) hd).of_eq ?_
      have htoken : token inside = .ok word inside := run_token hw
      rw [hk]
      simp only [extension, followingOperator, run_bind, htoken, hv, hupdate, Bool.false_eq_true, if_false,
        run_budget]
    obtain ⟨p₁, h₁, m₁, f₁⟩ := Leads.within hfollowing (fun _ _ hf => hf) (Nat.lt_of_succ_lt hd)
    refine ⟨p₁, ?_, m₁, f₁⟩
    rw [hstep, run_bind, h₁]
    exact extend_stops (current_none_of_nil f₁) (by simp only [List.length_cons] at hr; omega)

theorem quiet_divisors (hn : ∀ name ∈ names, IsSteadyName name.toList) :
    Lookahead.Quiet (divisors names) := by
  have hall : ∀ c ∈ divisors names, c ≠ '(' ∧ c ≠ ')' ∧ c ≠ '=' := by
    induction names with
    | nil => exact fun c hc => absurd hc List.not_mem_nil
    | cons name names ih =>
      have hname : ∀ c ∈ name.toList, c ≠ '(' ∧ c ≠ ')' ∧ c ≠ '=' := by
        intro c hc
        have hpart := (hn name List.mem_cons_self).plain.isName.part c hc
        refine ⟨?_, ?_, ?_⟩ <;> (rintro rfl; exact absurd hpart (by decide))
      intro c hc
      rw [divisors_cons] at hc
      simp only [List.mem_cons, List.mem_append] at hc
      rcases hc with rfl | rfl | rfl | hc | hc
      · decide
      · decide
      · decide
      · exact hname c hc
      · exact ih (fun other hin => hn other (List.mem_cons_of_mem _ hin)) c hc
  exact ⟨fun h => (hall _ h).1 rfl, fun h => (hall _ h).2.1 rfl,
    arrowFree_of_not_mem fun h => (hall _ h).2.2 rfl⟩

theorem length_le_divisors (names : List String) : names.length ≤ (divisors names).length := by
  induction names with
  | nil => exact Nat.zero_le _
  | cons name names ih =>
    rw [divisors_cons]
    simp only [List.length_cons, List.length_append]
    omega

section Programs

variable {target : String} {text : List Char} {operand : Node} {options : ParserOptions} {room : Nat}

/-- On the right side of an assignment to a name, a text is read as an operand that ends with a token of
its own, and nothing is left of it then. -/
def ReadsClosed (options : ParserOptions) (target : String) (text : List Char) (operand : Node) : Prop :=
  ∃ after, closedOperand (goal arrowAhead (options.maxDepth - 3))
    (Parser.inRight target text options) = .ok operand after ∧ after.lexer.exhausted = true

/-- The program that assigns an operand to a name. -/
def assignedProgram (target : String) (operand : Node) : Node :=
  .program [.expressionStatement (.assignment "=" (.identifier target) operand)]

theorem getLast?_assignedSource :
    (assignedSource target text).toList.getLast? = some '\x7d' ↔ text.getLast? = some '\x7d' := by
  rw [toList_assignedSource]
  cases text with
  | nil => simp
  | cons c text =>
    have hsplit : target.toList ++ ' ' :: '=' :: ' ' :: c :: text =
        (target.toList ++ [' ', '=', ' ']) ++ c :: text := by simp
    rw [hsplit, List.getLast?_append_of_ne_nil _ (List.cons_ne_nil c text)]

theorem source_inRight :
    (Parser.inRight target text options).lexer.source = (assignedSource target text).toList := by
  have hstarted (source : String) : (Parser.started source options).inStatement.lexer.source =
      source.toList := Lexer.next_source _ _
  rw [Parser.inRight, Parser.inAssigned, atRight]
  simp only [Lexer.next_source, hstarted]

theorem context_inRight : (Parser.inRight target text options).context.length = 4 := rfl

/-- With names to divide by behind it, such an operand is read alike. A slash divides it then, unless the
operand ends with a closing brace. -/
theorem freshOperand_divided (hn : IsSteadyName target.toList)
    (hnames : ∀ name ∈ names, IsSteadyName name.toList) (hd : options.maxDepth = room + 3)
    (hlimit : 3 < options.maxDepth) (h : ReadsClosed options target text operand)
    (fine : AllClear (divisors names) (program arrowAhead)
      (Parser.ofText (assignedSource target text) options)) :
    ∃ afterOperand after left after',
      freshOperand arrowAhead (goal arrowAhead room) (Parser.inRight target text options) =
        .ok operand after ∧
      after.lexer.Facing .default afterOperand [] ∧
      freshOperand arrowAhead (goal arrowAhead room)
          (Parser.inRight target (text ++ divisors names) options) =
        extend arrowAhead (goal arrowAhead room) operand left after' ∧
      after'.lexer.Facing .default afterOperand (divisors names) ∧
      after'.context = (Parser.inRight target text options).context ∧ after'.options = options ∧
      names.length < left ∧ names.length < after'.budget ∧
      (text.getLast? = some '\x7d' ↔ afterOperand = false) := by
  obtain ⟨after, hread, hx⟩ := h
  have hroom : options.maxDepth - 3 = room := by omega
  rw [hroom] at hread
  obtain ⟨first, between, hstart, -⟩ := ok_of_bind_ok hread
  obtain ⟨word, between', htoken, -⟩ := ok_of_bind_ok hstart
  obtain ⟨-, hw⟩ := of_token_ok htoken
  obtain ⟨hlonger, hclear⟩ := longer_inRight hn hd hlimit fine hw
  obtain ⟨left, after', hextend, hleft, hlast⟩ :=
    freshOperand_of_closedOperand (quiet_divisors hnames) le_rfl hlonger hclear hread hx
  have hfresh := run_freshOperand_of_closedOperand hread
  have hset : SameSetting (Parser.inRight target text options) after := by
    have hbuilt : Built arrowAhead (freshOperand arrowAhead (goal arrowAhead room)) :=
      .bind (built_fresh room) fun first => .bind built_elementary.budget fun rounds =>
        built_extend rounds first
    exact (hbuilt.keeping sameSetting_lasting sameSetting_arrowAhead).of_ok hfresh
  obtain ⟨lexer, hfaithful, hmarked, hrest, hsource, hends, hfacing, hfacing'⟩ := hlast.facing hx
  have hlength := length_le_divisors names
  refine ⟨lexer.afterOperand, after, left, after', hfresh, hfacing, hextend, hfacing',
    hlast.context.trans hset.context, hlast.options.trans hset.options, by omega, ?_, ?_⟩
  · have hbudget := hlast.budget
    rw [hset.budget] at hbudget
    have hpositive : 0 < (Parser.inRight target text options).budget := Nat.succ_pos _
    omega
  · have hwhole : lexer.source = (assignedSource target text).toList := by
      rw [hsource, hset.source, source_inRight]
    rw [← hends.getLast?_iff hmarked hfaithful hrest, hwhole, getLast?_assignedSource]

/-- Where no operand has ended, a regular expression comes next. -/
theorem current_regex {lexer : Lexer} (hnames : ∀ name ∈ names, IsSteadyName name.toList)
    (hlength : 1 < names.length) (h : lexer.Facing .default false (divisors names)) :
    ∃ word, lexer.current = some word ∧ word.kind = .regexLiteral := by
  obtain ⟨first, others, rfl⟩ := List.exists_cons_of_length_pos (Nat.zero_lt_of_lt hlength)
  obtain ⟨second, others, rfl⟩ := List.exists_cons_of_length_pos (Nat.lt_of_succ_lt_succ hlength)
  let regex : List Char := '/' :: (' ' :: (first.toList ++ [' ']) ++ ['/'])
  let rest : List Char := ' ' :: (second.toList ++ divisors others)
  have htext : divisors (first :: second :: others) = ' ' :: (regex ++ rest) := by
    simp [divisors_cons, regex, rest]
  have hhead : ∀ c ∈ (regex ++ rest).head?, isSpace c = false := by
    intro c hc
    rw [List.cons_append, List.head?_cons, Option.mem_some_iff] at hc
    subst hc
    rfl
  have hbegins : Begins .default false .regexLiteral none regex rest :=
    begins_regex (hnames first List.mem_cons_self).plain.isName _
  have hupdate : isUpdateSpelling regex = false := by
    simp [isUpdateSpelling, regex]
  rw [htext] at h
  obtain ⟨word, hw, hk, -⟩ := ((h.skip (Or.inl rfl) hhead).shows hbegins rfl hupdate).token
  exact ⟨word, hw, hk⟩

/-- Behind an operand that ends with a token of its own, slashes divide it if and only if its text does not
end with a closing brace; behind that, they begin a regular expression. This is for texts of which no
reading sees what is behind. -/
theorem ofSourceWith_divided_iff (hn : IsSteadyName target.toList)
    (hnames : ∀ name ∈ names, IsSteadyName name.toList) (hlength : 1 < names.length)
    (hlimit : 5 < options.maxDepth) (h : ReadsClosed options target text operand)
    (fine : AllClear (divisors names) (program arrowAhead)
      (Parser.ofText (assignedSource target text) options)) :
    Node.ofSourceWith options (assignedSource target text) = .ok (assignedProgram target operand) ∧
      (Node.ofSourceWith options (assignedSource target (text ++ divisors names)) =
          .ok (assignedProgram target (quotient operand names)) ↔
        text.getLast? ≠ some '\x7d') := by
  obtain ⟨room, hd⟩ : ∃ room, options.maxDepth = (room + 1) + 3 := ⟨options.maxDepth - 4, by omega⟩
  have hlimit' : 3 < options.maxDepth := by omega
  obtain ⟨afterOperand, after, left, after', hfresh, hfacing, hextend, hfacing', hcontext, hoptions,
    hleft, hbudget, hlast⟩ := freshOperand_divided hn hnames hd hlimit' h fine
  have hright := leadsTo_right hlimit' hfresh hfacing
  have ⟨_, hoperand, _⟩ := hright
  have hexpression : operand.isExpression = true :=
    ((shaping_goal (room + 2)).operandAt rfl _ _ _ hoperand).1
  refine ⟨ofSourceWith_of_right hn hd hlimit' hright, ?_⟩
  cases afterOperand with
  | true =>
    obtain ⟨final, hdivided, -, hend⟩ := leadsTo_quotient hnames hexpression hcontext hfacing' room
      hleft hbudget (by rw [hcontext, hoptions, context_inRight]; omega)
    have hparse := ofSourceWith_of_right hn hd hlimit'
      (leadsTo_right hlimit' (hextend.trans hdivided) hend)
    exact iff_of_true hparse fun hbrace => Bool.noConfusion (hlast.mp hbrace)
  | false =>
    have hregex (lexer : Lexer) (hf : lexer.Facing .default false (divisors names)) :
        ∃ word, lexer.current = some word ∧ canExtend word.kind = false ∧ word.kind ≠ .semicolon := by
      obtain ⟨word, hw, hk⟩ := current_regex hnames hlength hf
      exact ⟨word, hw, by rw [hk]; rfl, by rw [hk]; exact nofun⟩
    obtain ⟨word, hw, hstop, -⟩ := hregex after'.lexer hfacing'
    have hstopped := hextend.trans (extend_stop hw hstop (by omega))
    refine iff_of_false (fun hparse => ?_) fun hbrace => hbrace (hlast.mpr rfl)
    have hsame := eq_of_ofSourceWith_right hn hd hlimit' (leadsTo_right hlimit' hstopped hfacing')
      hregex hparse
    injection hsame with hsame
    injection hsame with _ _ hsame
    exact quotient_ne (List.ne_nil_of_length_pos (by omega)) hsame

theorem ofSourceWith_divided_parens_object :
    Node.ofSource "x = (b) / c / d" =
        .ok (assignedProgram "x" (quotient (.identifier "b") ["c", "d"])) ∧
      Node.ofSource "x = \x7b\x7d / c / d" ≠
        .ok (assignedProgram "x" (quotient (.object .expression []) ["c", "d"])) := by
  have hx : IsSteadyName "x".toList := IsPlainName.steady_of_any (by decide) (by decide)
  have hnames : ∀ name ∈ ["c", "d"], IsSteadyName name.toList := by
    have hplain : ∀ name ∈ ["c", "d"], IsPlainName name.toList ∧ name.toList.any isSpace = false := by
      decide
    exact fun name hin => (hplain name hin).1.steady_of_any (hplain name hin).2
  constructor
  · have hread : ReadsClosed {} "x" "(b)".toList (.identifier "b") := ⟨_, rfl, rfl⟩
    have hclear : Rule.neverSee (assignedSource "x" "(b)".toList).toList (divisors ["c", "d"]) = true := by
      decide
    exact (ofSourceWith_divided_iff hx hnames (by decide) (by decide) hread
      ⟨clear_of_neverSee hclear⟩).2.mpr (by decide)
  · have hread : ReadsClosed {} "x" "\x7b\x7d".toList (.object .expression []) := ⟨_, rfl, rfl⟩
    have hclear : Rule.neverSee (assignedSource "x" "\x7b\x7d".toList).toList (divisors ["c", "d"]) = true := by
      decide
    exact fun hparse => (ofSourceWith_divided_iff hx hnames (by decide) (by decide) hread
      ⟨clear_of_neverSee hclear⟩).2.mp hparse (by decide)

end Programs

end ParserM

end ScriptTree
