import ScriptTree.Proofs.OperatorChain
import ScriptTree.Proofs.WholeText

/-!
A chain of names and operators as a program.
-/

namespace ScriptTree

namespace Chain

theorem arrowFree_tail {links : List Link} (ho : ∀ link ∈ links,
      link.1 ∈ Operator.binaries.map Prod.fst ∧ IsName link.2.toList) : ArrowFree (tail links) := by
  induction links with
  | nil => exact arrowFree_of_not_mem List.not_mem_nil
  | cons link links ih =>
    obtain ⟨hop, hname⟩ := ho link List.mem_cons_self
    have ht := ih fun other hm => ho other (List.mem_cons_of_mem _ hm)
    have hspace : ArrowFree [' '] := arrowFree_of_not_mem (by decide)
    have he : tail (link :: links) =
        [' '] ++ (link.1.toList ++ ([' '] ++ (link.2.toList ++ tail links))) := by
      simp [tail]
    have hhead : (tail links).head? ≠ some '>' := by
      cases links <;> simp [tail]
    rw [he]
    refine hspace.append ?_ (Or.inl (by decide))
    refine (arrowFree_operator (List.mem_append_left _ hop)).append ?_ (Or.inr (by simp))
    refine hspace.append ?_ (Or.inl (by decide))
    exact (arrowFree_name hname).append ht (Or.inr hhead)

end Chain

namespace ParserM

open Chain

theorem length_tail (links : List Link) : 2 * links.length ≤ (tail links).length := by
  induction links with
  | nil => simp
  | cons link links ih =>
    have he : (tail (link :: links)).length =
        link.1.toList.length + link.2.toList.length + 2 + (tail links).length := by
      simp [tail]
      omega
    rw [he, List.length_cons]
    omega

theorem halts_nil (frame : Frame) : Halts frame [] := by
  intro lexer word hf hw
  rw [hf.current_nil.1] at hw
  cases hw

/-- Behind a name, the rule for operators takes over, and takes all of them that it can. -/
theorem extend_operators {sub : Goal → ParserM Node} {parser : Parser} {outer : Context}
    {name : String} {link : Link} {links : List Link} (rounds : Nat)
    (hc : parser.context = .filling .expressionStatement .expression :: outer)
    (hb : parser.Before true (tail (link :: links)))
    (ho : link.1 ∈ Operator.binaries.map Prod.fst)
    (hd : parser.context.length < parser.options.maxDepth) :
    extend arrowAhead sub (.identifier name) (rounds + 1) parser = (do
      let longer ← within (.extending .identifier)
        (takeOperators sub (.identifier name) Operator.leastStrength parser.budget)
      extend arrowAhead sub longer rounds) parser := by
  obtain ⟨word, hw, hk, hv, hp⟩ := (on_operator hb ho).shows.token
  obtain ⟨hu, -, -, hlow, hhigh, -⟩ := Operator.binaries_facts ho
  have hu' : Operator.isUpdate word.value = false := by rw [hv, String.ofList_toList, hu]
  have hi : parser.context.isComplete (.identifier name) = false := by
    rw [hc]
    rfl
  have ha : parser.context.admits (.identifier name) word = true := by
    simp [hc, Context.admits, hk, hu', Operator.binaryStrength?, hp, hlow, hhigh,
      Frame.admitsBinary, Frame.isBinaryRight, Frame.isUnaryArgument, Frame.isDeclaratorTarget]
  -- inside, the rule finds an operator that is no increment and starts to climb
  have hx : within (.extending .identifier) (extension sub word.kind (.identifier name)) parser =
      within (.extending .identifier)
        (takeOperators sub (.identifier name) Operator.leastStrength parser.budget) parser := by
    refine within_congr ?_
    have ht : token { parser with context := .extending .identifier :: parser.context } =
        .ok word _ := run_token hw
    simp only [hk, extension, followingOperator, run_bind, ht, hu', Bool.false_eq_true, if_false,
      run_budget]
  rw [extend_succ]
  simp only [run_bind, run_current, run_continues, hw, hi, ha, Bool.not_false, Bool.and_self,
    if_true, run_handOver hd, ← hx]
  rfl

theorem eq_nil_of_next {links : List Link}
    (ho : Next (· ∈ Operator.binaries.map Prod.fst) links)
    (h : Next (fun operator => Operator.strength operator < Operator.leastStrength) links) :
    links = [] := by
  cases links with
  | nil => rfl
  | cons link links =>
    have hle := (Operator.binaries_facts (ho link.1 link.2 links rfl)).2.2.2.1
    exact absurd hle (Nat.not_le.mpr (h link.1 link.2 links rfl))

theorem arrives_operators (room : Nat) {parser : Parser} {left : Node} {links : List Link}
    (hleg : Legible links) (hb : parser.Before true (tail links))
    (hd : parser.context.length < parser.options.maxDepth) (hg : left.Grouped)
    (hl : ∀ operator, left.FitsLeft operator) :
    ∃ tree, Arrives (takeOperators (goal arrowAhead (room + 1)) left Operator.leastStrength
        parser.budget) parser tree true [] ∧
      tree.pieces = left.pieces ++ pieces links ∧ tree.Grouped := by
  have hlen := length_tail links
  have hbudget := hb.budget
  obtain ⟨tree, taken, rest, hc, hx, hnext, -⟩ := (climbs parser.budget).1 room parser left
    Operator.leastStrength links hleg hb hd hg (fun _ _ _ _ _ => hl _) (by omega)
  -- no operator of the table is weaker than the least, so none is left
  have hrest := eq_nil_of_next (hleg.of_split hc.split).next hnext
  subst hrest
  exact ⟨tree, hx, by rw [hc.pieces, hc.split, List.append_nil], hc.grouped⟩

/-- A legible chain is read as an operand up to the end of the text, and is grouped. -/
theorem arrives_chain (room : Nat) {parser : Parser} {first : String} {links : List Link}
    (hn : IsName first.toList)
    (hbegins : ∀ afterOperand, Begins .default afterOperand .identifierName none first.toList
      (tail links))
    (hleg : Legible links) (hb : parser.Before false (first.toList ++ tail links))
    (hd : parser.context.length + 3 ≤ parser.options.maxDepth) :
    ∃ tree, Arrives (operandAt (goal arrowAhead (room + 2)) .expressionStatement .expression) parser
        tree true [] ∧
      tree.pieces = .inl (.identifier first) :: pieces links ∧ tree.Grouped := by
  have hread := readsAs_identifier hn
  rw [String.ofList_toList] at hread
  let inner : Parser :=
    { parser with context := .filling .expressionStatement .expression :: parser.context }
  obtain ⟨-, rounds, after, hx, hm, hb', hlt⟩ := hread (room + 1) inner false (tail links) _ _
    (hb.enter _) hbegins rfl rfl (Nat.zero_le _)
    (by simp only [inner, List.length_cons]; omega)
  have hc : after.context = .filling .expressionStatement .expression :: parser.context := hm.context
  have ho : after.options = parser.options := hm.options
  cases links with
  | nil =>
    refine ⟨.identifier first, Arrives.within ⟨after, ?_, hm, hb'⟩ (by omega), rfl, trivial⟩
    exact hx.trans (extend_halt hb'.facing hc (halts_nil _) (Nat.zero_lt_of_lt hlt))
  | cons link links =>
    obtain ⟨rounds, rfl⟩ := Nat.exists_eq_succ_of_ne_zero (Nat.ne_zero_of_lt hlt)
    have hlen := length_tail (link :: links)
    rw [List.length_cons] at hlen
    have hd' : after.context.length + 1 < after.options.maxDepth := by
      rw [hc, ho, List.length_cons]
      omega
    have hg : (Node.identifier first).Grouped := trivial
    obtain ⟨tree, hxt, hpieces, hgrouped⟩ := arrives_operators room hleg
      (hb'.enter (.extending .identifier)) hd' hg (fun _ => trivial)
    -- the whole rest of the chain is one extension of the first name, and nothing follows it
    obtain ⟨after', hx', hm', hb''⟩ := hxt.within (by omega)
    refine ⟨tree, Arrives.within ⟨after', ?_, hm.trans hm', hb''⟩ (by omega), hpieces, hgrouped⟩
    have hc' : after'.context = .filling .expressionStatement .expression :: parser.context :=
      hm'.context.trans hc
    refine hx.trans ((extend_operators rounds hc hb' hleg.1 (by omega)).trans ?_)
    rw [run_bind, hx']
    exact extend_halt hb''.facing hc' (halts_nil _) (by omega)

theorem isStatement_of_pieces {node : Node} {name : String} {others : List (Node ⊕ String)}
    (h : node.pieces = .inl (.identifier name) :: others) : node.isStatement = false := by
  unfold Node.pieces at h
  split at h
  · rename_i role _ _ _
    cases role <;> rfl
  · simp only [List.cons.injEq, Sum.inl.injEq] at h
    rw [h.1]
    rfl

/-- A legible chain is a program of one statement, whose expression is the grouped tree of the
chain. -/
theorem ofSource_of_legible {first : String} {links : List Link} (hn : IsName first.toList)
    (hbegins : ∀ afterOperand, Begins .default afterOperand .identifierName none first.toList
      (tail links))
    (hleg : Legible links) (harrow : ArrowFree (first.toList ++ tail links)) :
    ∃ tree, Node.ofSource (text first links) = .ok (.program [.expressionStatement tree]) ∧
      tree.pieces = .inl (.identifier first) :: pieces links ∧ tree.Grouped := by
  have hb := Parser.before_started {} ((toList_text first links).symm ▸ harrow)
  rw [toList_text] at hb
  obtain ⟨tree, hx, hpieces, hgrouped⟩ := arrives_chain 197 hn hbegins hleg
    (hb.enter (.filling .program .body)) (Nat.le_of_ble_eq_true rfl)
  have hon := hb.on (hbegins false) rfl (isUpdateSpelling_name hn)
  obtain ⟨word, hw, -⟩ := hon.shows.token
  obtain ⟨afterOperand, after, hs, hm, hb'⟩ := arrives_statementAt ⟨_, _, _, _, hon, rfl⟩
    (isStatement_of_pieces hpieces) hx (Or.inr ⟨rfl, rfl⟩) (Nat.le_of_ble_eq_true rfl)
  refine ⟨tree, ofSourceWith_of_programBody ?_ hb'.facing.current_nil.2, hpieces, hgrouped⟩
  have hbudget : (Parser.started (text first links) {}).budget =
      2 * (text first links).toList.length + 2 + 1 + 1 := rfl
  rw [hbudget]
  refine (run_programBody_of_statement hw hs hm rfl).trans ?_
  rw [run_programBody_nil hb'.facing]

end ParserM

end ScriptTree
