import ScriptTree.Proofs.Grouping
import ScriptTree.Proofs.Reading

/-!
Chains of names with binary operators between them.

The operators of a chain are taken by one rule, which calls itself for the stronger operators in a
right operand. Whatever the strengths are, what it builds is the one tree of the chain that is
grouped.
-/

namespace ScriptTree

namespace Chain

/-- An operator and the name behind it. -/
abbrev Link : Type := String × String

/-- The text of a chain, with single spaces. -/
def text : String → List Link → String
  | first, [] => first
  | first, (operator, name) :: links => first ++ " " ++ operator ++ " " ++ text name links

/-- The characters of a chain behind its first name. -/
def tail (links : List Link) : List Char :=
  links.flatMap fun link => ' ' :: (link.1.toList ++ ' ' :: link.2.toList)

/-- The operators of a chain, each with the operand behind it. -/
def pieces (links : List Link) : List (Node ⊕ String) :=
  links.flatMap fun link => [.inr link.1, .inl (.identifier link.2)]

theorem toList_text (first : String) (links : List Link) :
    (text first links).toList = first.toList ++ tail links := by
  induction links generalizing first with
  | nil => simp [text, tail]
  | cons link links ih => simp [text, tail, ih, String.toList_append]

/-- The operators of the rule table stand between names that are read as such. -/
def Legible : List Link → Prop
  | [] => True
  | (operator, name) :: links =>
    operator ∈ Operator.binaries.map Prod.fst ∧ IsName name.toList ∧
      (∀ afterOperand, Begins .default afterOperand .identifierName none name.toList (tail links)) ∧
      Legible links

theorem Legible.of_split {links taken rest : List Link} (h : Legible links)
    (hs : links = taken ++ rest) : Legible rest := by
  induction taken generalizing links with
  | nil =>
    rw [List.nil_append] at hs
    exact hs ▸ h
  | cons link taken ih =>
    subst hs
    exact ih h.2.2.2 rfl

/-- If an operator of the chain comes next, it satisfies a condition. -/
def Next (condition : String → Prop) (links : List Link) : Prop :=
  ∀ operator name others, links = (operator, name) :: others → condition operator

theorem Legible.next {links : List Link} (h : Legible links) :
    Next (· ∈ Operator.binaries.map Prod.fst) links := by
  rintro operator name others rfl
  exact h.1

end Chain

namespace Operator

theorem mem_binaries {operator : String} (h : operator ∈ binaries.map Prod.fst) :
    (operator, strength operator) ∈ binaries := by
  cases hs : binaries.lookup operator with
  | none =>
    obtain ⟨entry, he, rfl⟩ := List.mem_map.mp h
    simpa using List.lookup_eq_none_iff.mp hs entry he
  | some strength =>
    rw [Operator.strength, hs]
    exact mem_of_lookup hs

/-- What is needed of an operator of the table beyond how it is read: it is no increment, no space
comes first in it, and only one strength groups from the right. -/
theorem binaries_facts {operator : String} (h : operator ∈ binaries.map Prod.fst) :
    isUpdate operator = false ∧ isUpdateSpelling operator.toList = false ∧
      (operator.toList.head?.any fun c => !isSpace c) = true ∧
      leastStrength ≤ strength operator ∧
      strength operator < unaryStrength ∧
      (groupsRight operator = true ↔ strength operator = 15) := by
  have hall : ∀ entry ∈ binaries, isUpdate entry.1 = false ∧
      isUpdateSpelling entry.1.toList = false ∧
      (entry.1.toList.head?.any fun c => !isSpace c) = true ∧
      leastStrength ≤ entry.2 ∧ entry.2 < unaryStrength ∧
      (groupsRight entry.1 = true ↔ entry.2 = 15) := by
    rw [binaries_eq]
    decide
  exact hall _ (mem_binaries h)

theorem head_not_space {spelling : List Char}
    (h : (spelling.head?.any fun c => !isSpace c) = true) (rest : List Char) :
    ∀ c ∈ (spelling ++ rest).head?, isSpace c = false := by
  cases spelling with
  | nil => simp at h
  | cons c spelling => simpa using h

end Operator

theorem Lexer.Facing.shows_operator {lexer : Lexer} {operator name : String}
    {links : List Chain.Link} (h : lexer.Facing .default true (Chain.tail ((operator, name) :: links)))
    (ho : operator ∈ Operator.binaries.map Prod.fst) :
    lexer.Shows .operator (some (Operator.strength operator)) operator.toList false
      (' ' :: (name.toList ++ Chain.tail links)) := by
  have he : Chain.tail ((operator, name) :: links) =
      ' ' :: (operator.toList ++ ' ' :: (name.toList ++ Chain.tail links)) := by
    simp [Chain.tail]
  obtain ⟨-, hu, hs, -⟩ := Operator.binaries_facts ho
  rw [he] at h
  exact (h.skip (Or.inl rfl) (Operator.head_not_space hs _)).shows
    (begins_binary (Operator.mem_binaries ho) _) rfl hu

namespace ParserM

open Chain

theorem on_operator {parser : Parser} {operator name : String} {links : List Link}
    (hb : parser.Before true (tail ((operator, name) :: links)))
    (ho : operator ∈ Operator.binaries.map Prod.fst) :
    parser.On .operator (some (Operator.strength operator)) operator.toList
      (' ' :: (name.toList ++ tail links)) := by
  have he : tail ((operator, name) :: links) =
      ' ' :: operator.toList ++ ' ' :: (name.toList ++ tail links) := by
    simp [tail]
  have hl := hb.budget
  rw [he, List.length_append] at hl
  exact ⟨hb.facing.shows_operator ho, hb.answers, (he ▸ hb.arrowFree).of_append, by omega⟩

theorem run_binaryOperator_nil {parser : Parser} (hb : parser.Before true (tail [])) :
    binaryOperator? parser = .ok none parser := by
  simp only [binaryOperator?, run_bind, run_current, hb.facing.current_nil.1, run_pure]

theorem binaryStrength?_eq_some {word : Token} {operator : String}
    (h : operator ∈ Operator.binaries.map Prod.fst) (hk : word.kind = .operator)
    (hp : word.precedence = some (Operator.strength operator)) :
    Operator.binaryStrength? word = some (Operator.strength operator) := by
  obtain ⟨-, -, -, hl, hu, -⟩ := Operator.binaries_facts h
  simp [Operator.binaryStrength?, hk, hp, hl, hu]

theorem run_binaryOperator_of_on {parser : Parser} {operator : String} {rest : List Char}
    (h : operator ∈ Operator.binaries.map Prod.fst)
    (hon : parser.On .operator (some (Operator.strength operator)) operator.toList rest) :
    binaryOperator? parser = .ok (some (operator, Operator.strength operator)) parser := by
  obtain ⟨word, hc, hk, hv, hp⟩ := hon.shows.token
  simp only [binaryOperator?, run_bind, run_current, hc, binaryStrength?_eq_some h hk hp,
    Option.map_some, run_pure, hv, String.ofList_toList]

theorem run_binaryOperator_cons {parser : Parser} {operator name : String} {links : List Link}
    (hb : parser.Before true (tail ((operator, name) :: links)))
    (ho : operator ∈ Operator.binaries.map Prod.fst) :
    binaryOperator? parser = .ok (some (operator, Operator.strength operator)) parser :=
  run_binaryOperator_of_on ho (on_operator hb ho)

theorem halts_tail {links : List Link} (h : Next (· ∈ Operator.binaries.map Prod.fst) links) :
    Halts (.filling .binaryExpression .operand) (tail links) := by
  intro lexer word hf hw operand outer
  cases links with
  | nil =>
    rw [(Lexer.Facing.current_nil hf).1] at hw
    cases hw
  | cons link links =>
    obtain ⟨operator, name⟩ := link
    have ho := h operator name links rfl
    obtain ⟨word', hw', hk, hv, -⟩ := (hf.shows_operator ho).token
    rw [hw] at hw'
    cases hw'
    obtain ⟨hu, -⟩ := Operator.binaries_facts ho
    have hu' : Operator.isUpdate word.value = false := by rw [hv, String.ofList_toList, hu]
    simp [Context.admits, hk, hu', Frame.admitsBinary, Frame.isBinaryRight]

theorem arrives_operand (room : Nat) {parser : Parser} {name : String} {links : List Link}
    (hname : IsName name.toList)
    (hbegins : ∀ afterOperand, Begins .default afterOperand .identifierName none name.toList
      (tail links))
    (hrest : Next (· ∈ Operator.binaries.map Prod.fst) links)
    (hb : parser.Before false (' ' :: (name.toList ++ tail links)))
    (hd : parser.context.length < parser.options.maxDepth) :
    Arrives (operandAt (goal arrowAhead (room + 1)) .binaryExpression .operand) parser
      (.identifier name) true (tail links) := by
  have hr := readsAs_identifier hname
  rw [String.ofList_toList] at hr
  exact hr.arrives (hb.skip (Or.inl rfl) (hname.head_not_space _)) hbegins rfl (halts_tail hrest)
    (Nat.succ_pos room) hd

/-- What taking operators from a chain has come to: some links have been taken, and what was built
from them is grouped. -/
structure Climbed (start : Node) (links : List Link) (tree : Node) (taken rest : List Link) :
    Prop where
  split : links = taken ++ rest
  pieces : tree.pieces = start.pieces ++ Chain.pieces taken
  grouped : tree.Grouped

theorem Climbed.refl {start : Node} (links : List Link) (h : start.Grouped) :
    Climbed start links start [] links :=
  ⟨rfl, by simp [Chain.pieces], h⟩

theorem Climbed.trans {start between tree : Node} {links left rest taken taken' : List Link}
    (h : Climbed start links between taken left) (h' : Climbed between left tree taken' rest) :
    Climbed start links tree (taken ++ taken') rest := by
  refine ⟨by rw [h.split, h'.split, List.append_assoc], ?_, h'.grouped⟩
  rw [h'.pieces, h.pieces, Chain.pieces, Chain.pieces, Chain.pieces, List.flatMap_append,
    List.append_assoc]

/-- A tree with an operator of at least some strength at its root. -/
def Rooted (least : Nat) (tree : Node) : Prop :=
  ∃ role operator left right, tree = .binary role operator left right ∧
    operator ∈ Operator.binaries.map Prod.fst ∧ least ≤ Operator.strength operator

/-- Taking operators of at least some strength: the tree that is built has such an operator at its
root, and a weaker one comes next. -/
def TakesOperators (rounds : Nat) : Prop :=
  ∀ (room : Nat) (parser : Parser) (left : Node) (least : Nat) (links : List Link),
    Legible links → parser.Before true (tail links) →
    parser.context.length < parser.options.maxDepth → left.Grouped →
    Next (fun operator => least ≤ Operator.strength operator → left.FitsLeft operator) links →
    2 * links.length + 1 ≤ rounds →
    ∃ tree taken rest, Climbed left links tree taken rest ∧
      Arrives (takeOperators (goal arrowAhead (room + 1)) left least rounds) parser tree true
        (tail rest) ∧
      Next (fun operator => Operator.strength operator < least) rest ∧
      (taken = [] ∧ tree = left ∨ Rooted least tree)

/-- Whether an operator is taken by the right operand of the one before it. -/
def BindsTighter (operator following : String) : Prop :=
  Operator.strength operator < Operator.strength following ∨
    Operator.strength following = Operator.strength operator ∧
      Operator.groupsRight following = true

/-- Letting the right operand of an operator take what follows it: the tree that is built may stand
to the right of the operator, and the next operator is not for it to take. -/
def Absorbs (rounds : Nat) : Prop :=
  ∀ (room : Nat) (parser : Parser) (right : Node) (operator : String) (links : List Link),
    Legible links → parser.Before true (tail links) →
    parser.context.length < parser.options.maxDepth →
    operator ∈ Operator.binaries.map Prod.fst → right.Grouped → right.FitsRight operator →
    Next (fun following => BindsTighter operator following → right.FitsLeft following) links →
    2 * links.length + 2 ≤ rounds →
    ∃ tree taken rest, Climbed right links tree taken rest ∧
      Arrives (absorb (goal arrowAhead (room + 1)) right (Operator.strength operator) rounds) parser
        tree true (tail rest) ∧
      tree.FitsRight operator ∧
      Next (fun following => ¬BindsTighter operator following) rest

theorem Rooted.fitsLeft {least : Nat} {tree : Node} (h : Rooted least tree) {operator : String}
    (ho : Operator.strength operator < least) : tree.FitsLeft operator := by
  obtain ⟨_, root, _, _, rfl, -, hl⟩ := h
  exact ⟨by omega, fun _ => by omega⟩

theorem Rooted.fitsRight_succ {operator : String} {tree : Node}
    (h : Rooted (Operator.strength operator + 1) tree) : tree.FitsRight operator := by
  obtain ⟨_, root, _, _, rfl, -, hl⟩ := h
  exact Or.inl hl

/-- Operators that group from the right are all of one strength. -/
theorem Rooted.fitsRight {operator following : String} {tree : Node}
    (h : Rooted (Operator.strength operator) tree)
    (ho : operator ∈ Operator.binaries.map Prod.fst)
    (hf : following ∈ Operator.binaries.map Prod.fst)
    (he : Operator.strength following = Operator.strength operator)
    (hg : Operator.groupsRight following = true) : tree.FitsRight operator := by
  obtain ⟨_, root, _, _, rfl, hr, hl⟩ := h
  obtain ⟨-, -, -, -, -, hiff⟩ := Operator.binaries_facts hf
  obtain ⟨-, -, -, -, -, hiff'⟩ := Operator.binaries_facts ho
  obtain ⟨-, -, -, -, -, hiff''⟩ := Operator.binaries_facts hr
  have h15 := he.symm.trans (hiff.mp hg)
  rcases Nat.lt_or_eq_of_le hl with hlt | heq
  · exact Or.inl hlt
  · exact Or.inr ⟨heq, hiff'.mpr h15, hiff''.mpr (heq.symm.trans h15)⟩

theorem takesOperators_succ {rounds : Nat} (ht : TakesOperators rounds) (ha : Absorbs rounds) :
    TakesOperators (rounds + 1) := by
  intro room parser left least links hleg hb hd hg hn hr
  cases links with
  | nil =>
    refine ⟨left, [], [], .refl [] hg, ⟨parser, ?_, .refl parser, hb⟩, nofun,
      Or.inl ⟨rfl, rfl⟩⟩
    simp only [takeOperators, run_bind, run_binaryOperator_nil hb, run_pure]
  | cons link links =>
    obtain ⟨operator, name⟩ := link
    have ho := hleg.1
    by_cases hs : Operator.strength operator < least
    -- a weaker operator is left to an outer call
    · refine ⟨left, [], (operator, name) :: links, .refl _ hg, ⟨parser, ?_, .refl parser, hb⟩, ?_,
        Or.inl ⟨rfl, rfl⟩⟩
      · simp only [takeOperators, run_bind, run_binaryOperator_cons hb ho, if_pos hs, run_pure]
      · rintro _ _ _ ⟨⟩
        exact hs
    · obtain ⟨p₁, h₁, m₁, b₁⟩ := arrives_nextToken (on_operator hb ho)
      obtain ⟨p₂, h₂, m₂, b₂⟩ := arrives_operand room hleg.2.1 hleg.2.2.1
        hleg.2.2.2.next b₁ (by rw [m₁.context, m₁.options]; exact hd)
      have m₂' := m₁.trans m₂
      obtain ⟨right, taken, between, hc, ⟨p₃, h₃, m₃, b₃⟩, hf, hnext⟩ :=
        ha room p₂ (.identifier name) operator links hleg.2.2.2 b₂
          (by rw [m₂'.context, m₂'.options]; exact hd) ho trivial trivial (fun _ _ _ _ _ => trivial)
          (by simp only [List.length_cons] at hr; omega)
      have m₃' := m₂'.trans m₃
      have hlen := congrArg List.length hc.split
      rw [List.length_append] at hlen
      -- the operator taken joins what was built before with what its right operand has absorbed
      have hl : Climbed left ((operator, name) :: links)
          (.binary (Operator.role operator) operator left right) ((operator, name) :: taken)
          between := by
        refine ⟨by rw [hc.split]; rfl, ?_, rfl, hn operator name links rfl (Nat.not_lt.mp hs), hf, hg,
          hc.grouped⟩
        rw [Node.pieces, hc.pieces]
        simp [Chain.pieces, Node.pieces]
      -- what its right operand has left over is no stronger than the operator itself
      have hfit : Next (fun following => least ≤ Operator.strength following →
          (Node.binary (Operator.role operator) operator left right).FitsLeft following)
          between := by
        intro following name' others he _
        have hnb := hnext following name' others he
        simp only [BindsTighter, not_or, not_and] at hnb
        refine ⟨Nat.not_lt.mp hnb.1, fun hgr => ?_⟩
        exact Nat.lt_of_le_of_ne (Nat.not_lt.mp hnb.1) fun heq => hnb.2 heq hgr
      obtain ⟨tree, taken', rest, hc', ⟨p₄, h₄, m₄, b₄⟩, hnext', hroot⟩ :=
        ht room p₃ (.binary (Operator.role operator) operator left right) least between
          (hleg.2.2.2.of_split hc.split) b₃ (by rw [m₃'.context, m₃'.options]; exact hd)
          hl.grouped hfit (by simp only [List.length_cons] at hr; omega)
      refine ⟨tree, (operator, name) :: taken ++ taken', rest, hl.trans hc',
        ⟨p₄, ?_, m₃'.trans m₄, b₄⟩, hnext', Or.inr ?_⟩
      · simp only [takeOperators, run_bind, run_binaryOperator_cons hb ho, if_neg hs, h₁, h₂, h₃, h₄]
      · rcases hroot with ⟨-, rfl⟩ | hroot
        · exact ⟨_, _, _, _, rfl, ho, Nat.not_lt.mp hs⟩
        · exact hroot

/-- One round of absorbing: operators of at least some strength are taken, of which there is one. -/
theorem absorbs_of_takes (room : Nat) {rounds least : Nat} {parser : Parser} {right : Node}
    {operator following name : String} {links : List Link} (ht : TakesOperators rounds)
    (ha : Absorbs rounds) (hleg : Legible ((following, name) :: links))
    (hb : parser.Before true (tail ((following, name) :: links)))
    (hd : parser.context.length < parser.options.maxDepth)
    (ho : operator ∈ Operator.binaries.map Prod.fst) (hg : right.Grouped)
    (hf : right.FitsLeft following) (hl : least ≤ Operator.strength following)
    (hfr : ∀ tree, Rooted least tree → tree.FitsRight operator)
    (hr : 2 * ((following, name) :: links).length + 2 ≤ rounds + 1) :
    ∃ tree taken rest, Climbed right ((following, name) :: links) tree taken rest ∧
      Arrives (do
        let right ← takeOperators (goal arrowAhead (room + 1)) right least rounds
        absorb (goal arrowAhead (room + 1)) right (Operator.strength operator) rounds) parser
        tree true (tail rest) ∧
      tree.FitsRight operator ∧ Next (fun following => ¬BindsTighter operator following) rest := by
  obtain ⟨inner, taken, between, hc, ⟨p₁, h₁, m₁, b₁⟩, hnext, hroot⟩ :=
    ht room parser right least _ hleg hb hd hg (by rintro _ _ _ ⟨⟩ _; exact hf) (by omega)
  -- the next operator is strong enough, so at least that one has been taken
  have hne : taken ≠ [] := by
    rintro rfl
    exact absurd hl (Nat.not_le.mpr (hnext following name links hc.split.symm))
  have hpos := List.length_pos_iff.mpr hne
  have hlen := congrArg List.length hc.split
  rw [List.length_append] at hlen
  have hrooted : Rooted least inner := hroot.resolve_left fun h => hne h.1
  obtain ⟨tree, taken', rest, hc', ⟨p₂, h₂, m₂, b₂⟩, hfit, hnext'⟩ :=
    ha room p₁ inner operator between (hleg.of_split hc.split) b₁
      (by rw [m₁.context, m₁.options]; exact hd) ho hc.grouped (hfr inner hrooted)
      (fun weaker name' others he _ => hrooted.fitsLeft (hnext weaker name' others he)) (by omega)
  refine ⟨tree, taken ++ taken', rest, hc.trans hc', ⟨p₂, ?_, m₁.trans m₂, b₂⟩, hfit, hnext'⟩
  rw [run_bind, h₁]
  exact h₂

theorem absorbs_succ {rounds : Nat} (ht : TakesOperators rounds) (ha : Absorbs rounds) :
    Absorbs (rounds + 1) := by
  intro room parser right operator links hleg hb hd ho hg hf hn hr
  cases links with
  | nil =>
    refine ⟨right, [], [], .refl [] hg, ⟨parser, ?_, .refl parser, hb⟩, hf, nofun⟩
    simp only [absorb, run_bind, run_binaryOperator_nil hb, run_pure]
  | cons link links =>
    obtain ⟨following, name⟩ := link
    have hrun := run_binaryOperator_cons hb hleg.1
    have hfit := hn following name links rfl
    -- a stronger operator, one of the same strength that groups from the right, or neither
    by_cases hlt : Operator.strength operator < Operator.strength following
    · obtain ⟨tree, taken, rest, hc, hx, hpost⟩ := absorbs_of_takes room ht ha hleg hb hd ho
        hg (hfit (Or.inl hlt)) hlt (fun _ h => h.fitsRight_succ) hr
      refine ⟨tree, taken, rest, hc, hx.of_eq ?_, hpost⟩
      simp only [absorb, run_bind, hrun, if_pos hlt]
    · by_cases heq : Operator.strength following = Operator.strength operator ∧
          Operator.groupsRight following = true
      · obtain ⟨tree, taken, rest, hc, hx, hpost⟩ := absorbs_of_takes room ht ha hleg hb hd
          ho hg (hfit (Or.inr heq)) (Nat.le_of_eq heq.1.symm)
          (fun _ h => h.fitsRight ho hleg.1 heq.1 heq.2) hr
        refine ⟨tree, taken, rest, hc, hx.of_eq ?_, hpost⟩
        simp only [absorb, run_bind, hrun, if_neg hlt, if_pos heq]
      · refine ⟨right, [], (following, name) :: links, .refl _ hg, ⟨parser, ?_, .refl parser, hb⟩, hf,
          ?_⟩
        · simp only [absorb, run_bind, hrun, if_neg hlt, if_neg heq, run_pure]
        · rintro _ _ _ ⟨⟩ hbind
          exact hbind.elim hlt heq

theorem climbs (rounds : Nat) : TakesOperators rounds ∧ Absorbs rounds := by
  -- the rounds are enough, since every call takes a link or is followed by one that does
  induction rounds with
  | zero =>
    refine ⟨?_, ?_⟩
    · intro room parser left least links _ _ _ _ _ hr
      omega
    · intro room parser right operator links _ _ _ _ _ _ _ hr
      omega
  | succ rounds ih => exact ⟨takesOperators_succ ih.1 ih.2, absorbs_succ ih.1 ih.2⟩

end ParserM

end ScriptTree
