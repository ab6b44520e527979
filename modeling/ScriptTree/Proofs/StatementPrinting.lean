import ScriptTree.Proofs.FormulaProgram
import ScriptTree.Proofs.StatementLists

/-!
Statements whose expressions are names survive printing: what is printed for a program of them is read
as the same program.
-/

namespace ScriptTree

open ParserM

/-- What is printed for a statement whose expressions are names is read as that statement, at every
level of indentation. -/
theorem Node.IsPlainStatement.reads {statement : Node} (h : statement.IsPlainStatement) (level : Nat) :
    ReadsStatement (statement.lineText level) statement := by
  induction h generalizing level with
  | empty =>
    rw [lineText_empty]
    exact .empty
  | expression hn =>
    rw [lineText_expression]
    exact .expression hn
  | block _ ih =>
    rw [lineText_block]
    exact .block fun node hm => ih node hm (level + 1)
  | ifThen hn _ ih =>
    rw [lineText_ifThen]
    exact .ifThen hn (ih level)
  | ifElse hn _ ho _ ihc iha =>
    rw [lineText_ifElse]
    exact .ifElse hn (ihc level) ho (iha level)
  | whileLoop hn _ ih =>
    rw [lineText_while]
    exact .whileLoop hn (ih level)
  | doWhile hn _ ih =>
    rw [lineText_doWhile]
    exact .doWhile hn (ih level)
  | forLoop hs ht hp _ ih =>
    rw [lineText_forLoop]
    exact .forLoop hs ht hp (ih level)
  | forEach ht hn _ _ ih =>
    rw [lineText_forEach]
    exact .forEach ht hn (ih level)
  | switch hn ht _ ih =>
    rw [lineText_switch]
    exact .switch hn ht fun arm hm node hmn => ih arm hm node hmn (level + 1 + 1)
  | labeled hn _ ih =>
    rw [lineText_labeled]
    exact .labeled hn (ih level)
  | @returnStatement argument ha =>
    rw [lineText_return]
    cases argument with
    | none => exact .returnNothing
    | some name => exact .returnName (ha name rfl)
  | jump hl =>
    rw [lineText_jump]
    exact .jump fun name hm => (hl name hm).isName
  | declaration hp =>
    rw [lineText_declaration]
    exact .declaration hp

/-- The text of a program, each statement on a line of its own. -/
def programLines (body : List Node) : List Char :=
  body.flatMap fun statement => statement.lineText 0 ++ ['\n']

theorem programLines_cons (statement : Node) (body : List Node) :
    programLines (statement :: body) = statement.lineText 0 ++ '\n' :: programLines body := by
  simp [programLines]

theorem ReadsStatement.ne_nil {text : List Char} {node : Node} (h : ReadsStatement text node) :
    text ≠ [] := by
  rintro rfl
  have hf := Parser.facing_started "" {}
  obtain ⟨word, hw, -⟩ := h.opens [] _ _ hf
  rw [hf.current_nil.1] at hw
  cases hw

section Programs

open Printer

theorem toList_toSource_of_ne_nil {body : List Node} (h : ∀ node ∈ body, node.lineText 0 ≠ []) :
    (Node.program body).toSource.toList = programLines body := by
  have hlines : (List.zipWith (fun node bare => "" ++ asStatement node bare) body
      (bares {} 0 body)).map String.toList = body.map (Node.lineText 0) := by
    clear h
    induction body with
    | nil => rfl
    | cons node body ih =>
      refine congrArg₂ List.cons ?_ ih
      change ("" ++ asStatement node (bare {} 0 node)).toList = _
      rw [String.empty_append]
      rfl
  have htext : (bare {} 0 (.program body)).toList = ['\n'].intercalate (body.map (Node.lineText 0)) := by
    rw [← hlines]
    exact String.toList_intercalate
  cases body with
  | nil => rfl
  | cons node body =>
    have hne : (bare {} 0 (.program (node :: body))).isEmpty = false := by
      rw [Bool.eq_false_iff]
      intro he
      rw [String.isEmpty_iff.mp he] at htext
      have hnode := h node List.mem_cons_self
      have hnil := congrArg List.length htext
      have hlen := List.length_pos_iff.mpr hnode
      cases body with
      | nil => simp at hnil; omega
      | cons next body => simp at hnil
    have hsource : (Node.program (node :: body)).toSource =
        if true && !(bare {} 0 (.program (node :: body))).isEmpty then
          bare {} 0 (.program (node :: body)) ++ "\n"
        else bare {} 0 (.program (node :: body)) := rfl
    rw [hne, Bool.not_false, Bool.and_self, if_pos rfl] at hsource
    rw [hsource, String.toList_append, htext, List.map_cons]
    refine intercalate_append.trans ?_
    simp [programLines, List.flatMap_map]

theorem toList_toSource_statements {body : List Node} (h : ReadsLines 0 body) :
    (Node.program body).toSource.toList = programLines body :=
  toList_toSource_of_ne_nil fun node hm => (h node hm).ne_nil

end Programs

/-- A program is read statement by statement. -/
theorem ParserM.run_programBody_lines {body : List Node} (h : ReadsLines 0 body) {room rounds : Nat}
    {parser : Parser} {afterOperand : Bool} (hb : parser.Before afterOperand (programLines body))
    (hc : parser.context = []) (ho : parser.operands = []) (hr : body.length < rounds)
    (hroom : (programLines body).length ≤ room)
    (hd : (programLines body).length ≤ parser.options.maxDepth) :
    ∃ after, programBody (goal arrowAhead room) rounds parser = .ok body after ∧
      after.lexer.exhausted = true := by
  induction body generalizing parser afterOperand rounds with
  | nil =>
    obtain ⟨rounds, rfl⟩ := Nat.exists_eq_succ_of_ne_zero (Nat.ne_zero_of_lt hr)
    exact ⟨parser, run_programBody_nil hb.facing, hb.facing.current_nil.2⟩
  | cons statement body ih =>
    obtain ⟨rounds, rfl⟩ := Nat.exists_eq_succ_of_ne_zero (Nat.ne_zero_of_lt hr)
    have hfirst := h statement List.mem_cons_self
    have hrest : ReadsLines 0 body := fun other hm => h other (List.mem_cons_of_mem _ hm)
    rw [programLines_cons] at hb hroom hd
    simp only [List.length_append, List.length_cons] at hroom hd
    have hline : ∀ c ∈ ['\n'], isSpace c = true := List.forall_mem_singleton.mpr rfl
    have hnoElse : Heads NoElse ('\n' :: programLines body) := by
      have hp : Heads NoElse (programLines body) := by
        cases body with
        | nil =>
          intro lexer _ hf word hw
          rw [hf.current_nil.1] at hw
          cases hw
        | cons next body =>
          rw [programLines_cons]
          exact ((hrest next List.mem_cons_self).opens _).mono fun _ => OpensStatement.noElse
      exact hp.pass hline
    obtain ⟨word, hw, -⟩ := hfirst.opens _ _ _ hb.facing
    obtain ⟨_, p₁, h₁, m₁, b₁⟩ := hfirst.within room hb (fun _ => hnoElse) .program .body (by omega)
      (by rw [hc, List.length_nil]; omega)
    have b₁' : p₁.Before _ (['\n'] ++ programLines body) := b₁
    obtain ⟨after, h₂, hx⟩ := ih hrest (b₁'.pass hline) (m₁.context.trans hc) (m₁.operands.trans ho)
      (Nat.lt_of_succ_lt_succ hr) (by omega) (by rw [m₁.options]; omega)
    refine ⟨after, ?_, hx⟩
    rw [run_programBody_of_statement hw h₁ m₁ ho, h₂]

theorem arrowFree_of_not_mem_greater {text : List Char} (h : '>' ∉ text) : ArrowFree text := by
  rintro before behind rfl
  simp at h

theorem length_le_programLines (body : List Node) : body.length ≤ (programLines body).length := by
  induction body with
  | nil => exact Nat.le_refl _
  | cons statement body ih =>
    simp only [programLines_cons, List.length_append, List.length_cons]
    omega

/-- A program of statements whose expressions are names survives printing, if what is printed is not
longer than the limit on constructs inside each other. -/
theorem Node.ofSourceWith_toSource_of_statements {body : List Node} {options : ParserOptions}
    (h : ∀ statement ∈ body, statement.IsPlainStatement)
    (hd : (Node.program body).toSource.length ≤ options.maxDepth) :
    Node.ofSourceWith options (Node.program body).toSource = .ok (.program body) := by
  have hlines : ReadsLines 0 body := fun statement hm => (h statement hm).reads 0
  have htext := toList_toSource_statements hlines
  have harrows : ArrowFree (Node.program body).toSource.toList := by
    refine arrowFree_of_not_mem_greater ?_
    simp only [htext, programLines, List.mem_flatMap, List.mem_append, not_exists, not_and, not_or]
    exact fun statement hm => ⟨(h statement hm).not_mem 0, by decide⟩
  have hb := Parser.before_started options harrows
  have hbudget := hb.budget
  have hlength : (programLines body).length ≤ options.maxDepth := by
    rwa [← htext, String.length_toList]
  rw [htext] at hb hbudget
  obtain ⟨after, hx, hend⟩ := run_programBody_lines hlines hb rfl rfl
    ((length_le_programLines body).trans_lt hbudget) hlength hlength
  exact ofSourceWith_of_programBody hx hend

theorem Node.ofSourceWith_toSource_nested_choice :
    let body := [Node.labeled (.identifier "l") (.forEach .values
      (.variableDeclaration .constant [.variableDeclarator (.identifier "x") none])
      (.identifier "xs")
      (.ifStatement (.identifier "a")
        (.block [.ifStatement (.identifier "b") (.jump .leaveLoop (some (.identifier "l"))) none])
        (some (.doWhile .emptyStatement (.identifier "c")))) true)]
    Node.ofSourceWith {} (Node.program body).toSource = .ok (.program body) := by
  intro body
  have hname {name : String} (hp : IsPlainName name.toList)
      (hs : name.toList.any isSpace = false) : IsSteadyName name.toList :=
    hp.steady fun c hc => by simpa using List.any_eq_false.mp hs c hc
  have hjump : (Node.jump .leaveLoop ((some "l").map .identifier)).IsPlainStatement :=
    .jump fun name hn => by
      cases hn
      decide
  have hinner : (Node.block [.ifStatement (.identifier "b")
      (.jump .leaveLoop (some (.identifier "l"))) none]).IsPlainStatement := by
    refine .block fun statement hm => ?_
    rw [List.mem_singleton.mp hm]
    exact .ifThen (hname (by decide) (by decide)) hjump
  have hplain : ∀ statement ∈ body, statement.IsPlainStatement := by
    intro statement hm
    rw [List.mem_singleton.mp hm]
    have htarget : (EachTarget.declaration .constant "x").IsPlain := by
      change IsPlainName "x".toList
      decide
    have hchoice := Node.IsPlainStatement.ifElse
      (hname (show IsPlainName "a".toList by decide) (by decide)) hinner rfl
      (.doWhile (hname (show IsPlainName "c".toList by decide) (by decide)) .empty)
    have hloop := Node.IsPlainStatement.forEach htarget
      (hname (show IsPlainName "xs".toList by decide) (by decide))
      (fun _ : true = true => rfl) hchoice
    exact .labeled (hname (by decide) (by decide)) hloop
  exact Node.ofSourceWith_toSource_of_statements hplain (by decide)

end ScriptTree
