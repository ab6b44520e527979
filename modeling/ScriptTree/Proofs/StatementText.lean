import ScriptTree.Printer.Print
import ScriptTree.Proofs.ClauseReading

/-!
Statements whose expressions are names, and the text that is printed for them.
-/

namespace ScriptTree

/-- Whether a statement ends in a choice that has no second branch. An `else` behind it would give it
one. -/
def Node.endsOpen : Node → Bool
  | .ifStatement _ _ none => true
  | .ifStatement _ _ (some alternate) => alternate.endsOpen
  | .forStatement _ _ _ body | .forEach _ _ _ body _ | .whileStatement _ body
  | .labeled _ body => body.endsOpen
  | _ => false

/-- The first clause of a loop with three of them. -/
inductive ForStart where
  /-- It is left out. -/
  | nothing
  /-- A name. -/
  | name (name : String)
  /-- A declaration of variables. -/
  | declaration (kind : VariableKind) (first : NameDeclarator) (others : List NameDeclarator)

namespace ForStart

/-- The node of the clause. -/
def node? : ForStart → Option Node
  | nothing => none
  | name word => some (.identifier word)
  | declaration kind first others =>
    some (.variableDeclaration kind ((first :: others).map NameDeclarator.node))

/-- How it is written. -/
def text : ForStart → List Char
  | nothing => []
  | name word => word.toList
  | declaration kind first others => kind.keyword.toList ++ ' ' :: declaratorsText (first :: others)

/-- All its names are plain ones. -/
def IsPlain : ForStart → Prop
  | nothing => True
  | name word => IsSteadyName word.toList
  | declaration _ first others => ∀ declarator ∈ first :: others, declarator.IsPlain

end ForStart

/-- What a loop over the members of a value gives them to. -/
inductive EachTarget where
  /-- A name. -/
  | name (name : String)
  /-- A name that is declared for them. -/
  | declaration (kind : VariableKind) (name : String)

namespace EachTarget

/-- The node of the target. -/
def node : EachTarget → Node
  | name word => .identifier word
  | declaration kind word => .variableDeclaration kind [NameDeclarator.node ⟨word, none⟩]

/-- How it is written. -/
def text : EachTarget → List Char
  | name word => word.toList
  | declaration kind word => kind.keyword.toList ++ ' ' :: declaratorsText [⟨word, none⟩]

/-- Its name is a plain one. -/
def IsPlain : EachTarget → Prop
  | name word => IsSteadyName word.toList
  | declaration _ word => IsPlainName word.toList

end EachTarget

/-- A case of a switch, with a name to be tested for. Without one it is the default. -/
structure NameCase where
  /-- The name to be tested for. -/
  test : Option String
  /-- What is done then. -/
  body : List Node

/-- The case as a node. -/
def NameCase.node (arm : NameCase) : Node := .switchCase (arm.test.map .identifier) arm.body

/-- The name of a clause that may be left out is a steady one. -/
def IsSteadyClause (clause : Option String) : Prop := ∀ name ∈ clause, IsSteadyName name.toList

/-- Statements whose expressions are names. A choice with two branches keeps its `else`: the first
branch does not end in a choice without one. -/
inductive Node.IsPlainStatement : Node → Prop
  | empty : IsPlainStatement .emptyStatement
  | expression {name : String} : IsSteadyName name.toList →
    IsPlainStatement (.expressionStatement (.identifier name))
  | block {body : List Node} : (∀ statement ∈ body, IsPlainStatement statement) →
    IsPlainStatement (.block body)
  | ifThen {test : String} {consequent : Node} : IsSteadyName test.toList →
    IsPlainStatement consequent → IsPlainStatement (.ifStatement (.identifier test) consequent none)
  | ifElse {test : String} {consequent alternate : Node} : IsSteadyName test.toList →
    IsPlainStatement consequent → consequent.endsOpen = false → IsPlainStatement alternate →
    IsPlainStatement (.ifStatement (.identifier test) consequent (some alternate))
  | whileLoop {test : String} {body : Node} : IsSteadyName test.toList → IsPlainStatement body →
    IsPlainStatement (.whileStatement (.identifier test) body)
  | doWhile {test : String} {body : Node} : IsSteadyName test.toList → IsPlainStatement body →
    IsPlainStatement (.doWhile body (.identifier test))
  | forLoop {start : ForStart} {test step : Option String} {body : Node} : start.IsPlain →
    IsSteadyClause test → IsSteadyClause step → IsPlainStatement body →
    IsPlainStatement
      (.forStatement start.node? (test.map .identifier) (step.map .identifier) body)
  | forEach {kind : ForEachKind} {target : EachTarget} {right : String} {body : Node}
    {awaits : Bool} : target.IsPlain → IsSteadyName right.toList →
    (awaits = true → kind = .values) → IsPlainStatement body →
    IsPlainStatement (.forEach kind target.node (.identifier right) body awaits)
  | switch {discriminant : String} {arms : List NameCase} : IsSteadyName discriminant.toList →
    (∀ arm ∈ arms, IsSteadyClause arm.test) →
    (∀ arm ∈ arms, ∀ statement ∈ arm.body, IsPlainStatement statement) →
    IsPlainStatement (.switchStatement (.identifier discriminant) (arms.map NameCase.node))
  | labeled {label : String} {body : Node} : IsSteadyName label.toList → IsPlainStatement body →
    IsPlainStatement (.labeled (.identifier label) body)
  | returnStatement {argument : Option String} : IsSteadyClause argument →
    IsPlainStatement (.returnStatement (argument.map .identifier))
  | jump {kind : JumpKind} {label : Option String} : (∀ name ∈ label, IsPlainName name.toList) →
    IsPlainStatement (.jump kind (label.map .identifier))
  | declaration {kind : VariableKind} {first : NameDeclarator} {others : List NameDeclarator} :
    (∀ declarator ∈ first :: others, declarator.IsPlain) →
    IsPlainStatement (.variableDeclaration kind ((first :: others).map NameDeclarator.node))

open Printer

/-- A new line at a level of indentation. -/
def marginText (level : Nat) : List Char := (lineBreak {} level).toList

theorem marginText_eq (level : Nat) : marginText level =
    '\n' :: (List.replicate level [' ', ' ', ' ', ' ']).flatten := by
  have hjoin : (String.join (List.replicate level "    ")).toList =
      (List.replicate level [' ', ' ', ' ', ' ']).flatten := by
    rw [String.toList_join, List.flatMap_def, List.map_replicate]
    rfl
  have h : lineBreak {} level = "\n" ++ String.join (List.replicate level "    ") := rfl
  rw [marginText, h, String.toList_append, hjoin]
  rfl

theorem isSpace_of_mem_marginText {level : Nat} : ∀ c ∈ marginText level, isSpace c = true := by
  intro c hc
  simp only [marginText_eq, List.mem_cons, List.mem_flatten, List.mem_replicate] at hc
  rcases hc with rfl | ⟨gap, ⟨-, rfl⟩, hc⟩
  · rfl
  · simp only [List.mem_cons, List.not_mem_nil, or_false, or_self] at hc
    rw [hc]
    rfl

/-- The text of a statement at a level of indentation. -/
def Node.lineText (level : Nat) (node : Node) : List Char :=
  (asStatement node (bare {} level node)).toList

/-- The text of statements, each on a new line. -/
def linesText (level : Nat) (nodes : List Node) : List Char :=
  nodes.flatMap fun node => marginText level ++ node.lineText level

theorem linesText_cons (level : Nat) (node : Node) (nodes : List Node) :
    linesText level (node :: nodes) = marginText level ++ (node.lineText level ++ linesText level nodes) := by
  simp [linesText]

theorem toList_statementLines (level : Nat) (nodes : List Node) :
    (statementLines {} level nodes (bares {} level nodes)).toList = linesText level nodes := by
  rw [statementLines, String.toList_join]
  induction nodes with
  | nil => rfl
  | cons node nodes ih =>
    have hcons : bares {} level (node :: nodes) = bare {} level node :: bares {} level nodes := rfl
    rw [hcons, List.zipWith_cons_cons, List.flatMap_cons, ih, String.toList_append, linesText_cons,
      List.append_assoc]
    rfl

/-- What stands before the consequent of a case. -/
def NameCase.headText (arm : NameCase) : List Char :=
  match arm.test with
  | some name => "case".toList ++ ' ' :: (name.toList ++ [':'])
  | none => "default".toList ++ [':']

/-- The text of the cases of a switch. -/
def armsText (level : Nat) (arms : List NameCase) : List Char :=
  arms.flatMap fun arm => marginText level ++ (arm.headText ++ linesText (level + 1) arm.body)

/-- The text of a clause behind a space, if it is not left out. -/
def clauseText (clause : Option String) : List Char :=
  match clause with
  | some name => ' ' :: name.toList
  | none => []

/-- The text of statements between braces. -/
def bodyText (level : Nat) (nodes : List Node) : List Char :=
  if nodes.isEmpty then [] else linesText (level + 1) nodes ++ marginText level

section LineText

variable (level : Nat)

theorem lineText_empty : Node.emptyStatement.lineText level = [';'] := by
  have h : asStatement .emptyStatement (bare {} level .emptyStatement) = ";" := rfl
  simp [Node.lineText, h]

theorem lineText_expression (name : String) :
    (Node.expressionStatement (.identifier name)).lineText level = name.toList ++ [';'] := by
  have h : asStatement (.expressionStatement (.identifier name)) (bare {} level
    (.expressionStatement (.identifier name))) = name ++ ";" := rfl
  simp [Node.lineText, h]

theorem lineText_block (body : List Node) :
    (Node.block body).lineText level = '\x7b' :: (bodyText level body ++ ['\x7d']) := by
  have h : asStatement (.block body) (bare {} level (.block body)) =
    if body.isEmpty then "\x7b\x7d" else "\x7b" ++ statementLines {} (level + 1) body
      (bares {} (level + 1) body) ++ lineBreak {} level ++ "\x7d" := rfl
  rw [Node.lineText, h, bodyText]
  split
  · rfl
  · simp [toList_statementLines, marginText]

theorem lineText_ifThen (test : String) (consequent : Node) :
    (Node.ifStatement (.identifier test) consequent none).lineText level =
      "if".toList ++ ' ' :: '(' :: (test.toList ++ ')' :: ' ' :: consequent.lineText level) := by
  have h : asStatement (.ifStatement (.identifier test) consequent none) (bare {} level
    (.ifStatement (.identifier test) consequent none)) =
      "if (" ++ test ++ ") " ++ asStatement consequent (bare {} level consequent) ++ "" := rfl
  simp [Node.lineText, h]

theorem lineText_ifElse (test : String) (consequent alternate : Node) :
    (Node.ifStatement (.identifier test) consequent (some alternate)).lineText level =
      "if".toList ++ ' ' :: '(' :: (test.toList ++ ')' :: ' ' :: (consequent.lineText level ++
        ' ' :: ("else".toList ++ ' ' :: alternate.lineText level))) := by
  have h : asStatement (.ifStatement (.identifier test) consequent (some alternate)) (bare {} level
    (.ifStatement (.identifier test) consequent (some alternate))) =
      "if (" ++ test ++ ") " ++ asStatement consequent (bare {} level consequent) ++
        (" else " ++ asStatement alternate (bare {} level alternate)) := rfl
  simp [Node.lineText, h]

theorem lineText_while (test : String) (body : Node) :
    (Node.whileStatement (.identifier test) body).lineText level =
      "while".toList ++ ' ' :: '(' :: (test.toList ++ ')' :: ' ' :: body.lineText level) := by
  have h : asStatement (.whileStatement (.identifier test) body) (bare {} level
    (.whileStatement (.identifier test) body)) =
      "while (" ++ test ++ ") " ++ asStatement body (bare {} level body) := rfl
  simp [Node.lineText, h]

theorem lineText_doWhile (test : String) (body : Node) :
    (Node.doWhile body (.identifier test)).lineText level =
      "do".toList ++ ' ' :: (body.lineText level ++
        ' ' :: ("while".toList ++ ' ' :: '(' :: (test.toList ++ [')', ';']))) := by
  have h : asStatement (.doWhile body (.identifier test)) (bare {} level
    (.doWhile body (.identifier test))) =
      "do " ++ asStatement body (bare {} level body) ++ " while (" ++ test ++ ");" := rfl
  simp [Node.lineText, h]

theorem lineText_labeled (label : String) (body : Node) :
    (Node.labeled (.identifier label) body).lineText level =
      label.toList ++ ':' :: ' ' :: body.lineText level := by
  have h : asStatement (.labeled (.identifier label) body) (bare {} level
    (.labeled (.identifier label) body)) =
      label ++ ": " ++ asStatement body (bare {} level body) := rfl
  simp [Node.lineText, h]

theorem lineText_return (argument : Option String) :
    (Node.returnStatement (argument.map .identifier)).lineText level =
      "return".toList ++ (clauseText argument ++ [';']) := by
  cases argument with
  | none =>
    have h : asStatement (.returnStatement none) (bare {} level (.returnStatement none)) =
      "return" ++ "" ++ ";" := rfl
    simp [Node.lineText, h, clauseText]
  | some name =>
    have h : asStatement (.returnStatement (some (.identifier name))) (bare {} level
      (.returnStatement (some (.identifier name)))) = "return" ++ (" " ++ name) ++ ";" := rfl
    simp [Node.lineText, h, clauseText]

theorem lineText_jump (kind : JumpKind) (label : Option String) :
    (Node.jump kind (label.map .identifier)).lineText level =
      kind.keyword.toList ++ (clauseText label ++ [';']) := by
  cases label with
  | none =>
    have h : asStatement (.jump kind none) (bare {} level (.jump kind none)) =
      kind.keyword ++ "" ++ ";" := by cases kind <;> rfl
    simp [Node.lineText, h, clauseText]
  | some name =>
    have h : asStatement (.jump kind (some (.identifier name))) (bare {} level
      (.jump kind (some (.identifier name)))) = kind.keyword ++ (" " ++ name) ++ ";" := by
      cases kind <;> rfl
    simp [Node.lineText, h, clauseText]

theorem toList_declaration (kind : VariableKind) (first : NameDeclarator)
    (others : List NameDeclarator) :
    (bare {} level (.variableDeclaration kind ((first :: others).map NameDeclarator.node))).toList =
      kind.keyword.toList ++ ' ' :: declaratorsText (first :: others) := by
  have hone (declarator : NameDeclarator) :
      (alone declarator.node (bare {} level declarator.node)).toList = declarator.text := by
    obtain ⟨target, _ | value⟩ := declarator
    · have h : alone (NameDeclarator.node ⟨target, none⟩)
        (bare {} level (NameDeclarator.node ⟨target, none⟩)) = target ++ "" := rfl
      simp [h, NameDeclarator.text, NameDeclarator.valueText]
    · have h : alone (NameDeclarator.node ⟨target, some value⟩)
        (bare {} level (NameDeclarator.node ⟨target, some value⟩)) =
          target ++ (" = " ++ value) := rfl
      simp [h, NameDeclarator.text, NameDeclarator.valueText]
  have hall (declarators : List NameDeclarator) :
      (List.zipWith alone (declarators.map NameDeclarator.node)
        (bares {} level (declarators.map NameDeclarator.node))).map String.toList =
      declarators.map NameDeclarator.text := by
    induction declarators with
    | nil => rfl
    | cons declarator declarators ih => exact congrArg₂ List.cons (hone declarator) ih
  have h : bare {} level (.variableDeclaration kind ((first :: others).map NameDeclarator.node)) =
    kind.keyword ++ " " ++ ", ".intercalate (List.zipWith alone
      ((first :: others).map NameDeclarator.node)
      (bares {} level ((first :: others).map NameDeclarator.node))) := rfl
  rw [h, String.toList_append, String.toList_append, String.toList_intercalate, hall]
  simp [declaratorsText]

theorem lineText_declaration (kind : VariableKind) (first : NameDeclarator)
    (others : List NameDeclarator) :
    (Node.variableDeclaration kind ((first :: others).map NameDeclarator.node)).lineText level =
      kind.keyword.toList ++ ' ' :: (declaratorsText (first :: others) ++ [';']) := by
  have h : asStatement (.variableDeclaration kind ((first :: others).map NameDeclarator.node))
    (bare {} level (.variableDeclaration kind ((first :: others).map NameDeclarator.node))) =
      bare {} level (.variableDeclaration kind ((first :: others).map NameDeclarator.node)) ++ ";" := rfl
  rw [Node.lineText, h, String.toList_append, toList_declaration]
  simp

theorem toList_forStart (start : ForStart) : (bareOption {} level start.node?).toList = start.text := by
  cases start with
  | nothing => exact String.toList_empty
  | name word => rfl
  | declaration kind first others => exact toList_declaration level kind first others

theorem lineText_forLoop (start : ForStart) (test step : Option String) (body : Node) :
    (Node.forStatement start.node? (test.map .identifier) (step.map .identifier) body).lineText
        level =
      "for".toList ++ ' ' :: '(' :: (start.text ++ ';' :: (clauseText test ++ ';' ::
        (clauseText step ++ ')' :: ' ' :: body.lineText level))) := by
  have hclause (clause : Option String) : (optional (clause.map .identifier)
      (bareOption {} level (clause.map .identifier))
      (fun node text => " " ++ placed .any node text)).toList = clauseText clause := by
    cases clause with
    | none => rfl
    | some name =>
      have h : optional (some (.identifier name)) (bareOption {} level (some (.identifier name)))
        (fun node text => " " ++ placed .any node text) = " " ++ name := rfl
      simp [h, clauseText]
  have h : asStatement (.forStatement start.node? (test.map .identifier) (step.map .identifier) body)
    (bare {} level (.forStatement start.node? (test.map .identifier) (step.map .identifier) body)) =
      "for (" ++ bareOption {} level start.node? ++ ";" ++ optional (test.map .identifier)
        (bareOption {} level (test.map .identifier)) (fun node text => " " ++ placed .any node text) ++
      ";" ++ optional (step.map .identifier) (bareOption {} level (step.map .identifier))
        (fun node text => " " ++ placed .any node text) ++ ") " ++
      asStatement body (bare {} level body) := rfl
  simp [Node.lineText, h, hclause, toList_forStart]

/-- The keyword part of the head of a loop over the members of a value. -/
def eachWords (awaits : Bool) : String := if awaits then "for await" else "for"

theorem lineText_forEach (kind : ForEachKind) (target : EachTarget) (right : String) (body : Node)
    (awaits : Bool) :
    (Node.forEach kind target.node (.identifier right) body awaits).lineText level =
      (eachWords awaits).toList ++ ' ' :: '(' :: (target.text ++ ' ' :: (kind.keyword.toList ++
        ' ' :: (right.toList ++ ')' :: ' ' :: body.lineText level))) := by
  have htarget : (bare {} level target.node).toList = target.text := by
    cases target with
    | name word => rfl
    | declaration kind word => exact toList_declaration level kind ⟨word, none⟩ []
  have h : asStatement (.forEach kind target.node (.identifier right) body awaits) (bare {} level
    (.forEach kind target.node (.identifier right) body awaits)) =
      "for " ++ (if awaits then "await " else "") ++ "(" ++ bare {} level target.node ++ " " ++
      kind.keyword ++ " " ++ right ++ ") " ++ asStatement body (bare {} level body) := by
    cases kind <;> rfl
  cases awaits <;> simp [Node.lineText, h, htarget, eachWords]

theorem toList_arms (arms : List NameCase) :
    (aloneLines {} level (arms.map NameCase.node) (bares {} level (arms.map NameCase.node))).toList =
      armsText level arms := by
  have hone (arm : NameCase) : (alone arm.node (bare {} level arm.node)).toList =
      arm.headText ++ linesText (level + 1) arm.body := by
    obtain ⟨_ | name, body⟩ := arm
    · have h : alone (NameCase.node ⟨none, body⟩) (bare {} level (NameCase.node ⟨none, body⟩)) =
        "default:" ++ statementLines {} (level + 1) body (bares {} (level + 1) body) := rfl
      simp [h, NameCase.headText, toList_statementLines]
    · have h : alone (NameCase.node ⟨some name, body⟩)
        (bare {} level (NameCase.node ⟨some name, body⟩)) =
          "case " ++ name ++ ":" ++
            statementLines {} (level + 1) body (bares {} (level + 1) body) := rfl
      simp [h, NameCase.headText, toList_statementLines]
  rw [aloneLines, String.toList_join]
  induction arms with
  | nil => rfl
  | cons arm arms ih =>
    have hcons : bares {} level ((arm :: arms).map NameCase.node) =
      bare {} level arm.node :: bares {} level (arms.map NameCase.node) := rfl
    rw [hcons, List.map_cons, List.zipWith_cons_cons, List.flatMap_cons, ih, String.toList_append,
      hone]
    rfl

theorem lineText_switch (discriminant : String) (arms : List NameCase) :
    (Node.switchStatement (.identifier discriminant) (arms.map NameCase.node)).lineText level =
      "switch".toList ++ ' ' :: '(' :: (discriminant.toList ++ ')' :: ' ' :: '\x7b' ::
        (armsText (level + 1) arms ++ (marginText level ++ ['\x7d']))) := by
  have h : asStatement (.switchStatement (.identifier discriminant) (arms.map NameCase.node))
    (bare {} level (.switchStatement (.identifier discriminant) (arms.map NameCase.node))) =
      "switch (" ++ discriminant ++ ") \x7b" ++ aloneLines {} (level + 1) (arms.map NameCase.node)
        (bares {} (level + 1) (arms.map NameCase.node)) ++ lineBreak {} level ++ "\x7d" := rfl
  simp [Node.lineText, h, toList_arms, marginText]

end LineText

section Arrows

theorem IsName.not_mem {name : List Char} (h : IsName name) : '>' ∉ name := fun hm =>
  absurd (h.part _ hm) (by decide)

theorem IsSteadyClause.not_mem {clause : Option String} (h : IsSteadyClause clause) :
    '>' ∉ clauseText clause := by
  cases clause with
  | none => exact List.not_mem_nil
  | some name => simp [clauseText, (h name rfl).plain.isName.not_mem]

theorem NameDeclarator.IsPlain.not_mem {declarator : NameDeclarator} (h : declarator.IsPlain) :
    '>' ∉ declarator.target.toList ∧ '>' ∉ declarator.valueText := by
  refine ⟨h.target.isName.not_mem, ?_⟩
  obtain ⟨target, _ | value⟩ := declarator
  · exact List.not_mem_nil
  · simp [NameDeclarator.valueText, (h.value value rfl).plain.isName.not_mem]

theorem not_mem_declaratorsText {first : NameDeclarator} {others : List NameDeclarator}
    (h : ∀ declarator ∈ first :: others, declarator.IsPlain) :
    '>' ∉ declaratorsText (first :: others) := by
  have hfirst := (h first List.mem_cons_self).not_mem
  induction others generalizing first with
  | nil => simp [declaratorsText_singleton, hfirst]
  | cons next others ih =>
    have hrest : ∀ declarator ∈ next :: others, declarator.IsPlain := fun declarator hm =>
      h declarator (List.mem_cons_of_mem first hm)
    have hmore := ih hrest (hrest next List.mem_cons_self).not_mem
    simp [declaratorsText_cons_cons, hfirst, hmore]

theorem VariableKind.not_mem (kind : VariableKind) : '>' ∉ kind.keyword.toList := by
  cases kind <;> decide

theorem ForStart.IsPlain.not_mem {start : ForStart} (h : start.IsPlain) : '>' ∉ start.text := by
  cases start with
  | nothing => exact List.not_mem_nil
  | name word => exact IsName.not_mem h.plain.isName
  | declaration kind first others =>
    simp [ForStart.text, kind.not_mem, not_mem_declaratorsText h]

theorem EachTarget.IsPlain.not_mem {target : EachTarget} (h : target.IsPlain) :
    '>' ∉ target.text := by
  cases target with
  | name word => exact IsName.not_mem h.plain.isName
  | declaration kind word =>
    have hone : ∀ declarator ∈ [NameDeclarator.mk word none], declarator.IsPlain := by
      intro declarator hm
      rw [List.mem_singleton.mp hm]
      exact ⟨h, nofun⟩
    simp [EachTarget.text, kind.not_mem, not_mem_declaratorsText hone]

theorem not_mem_marginText (level : Nat) : '>' ∉ marginText level := fun hm =>
  absurd (isSpace_of_mem_marginText _ hm) (by decide)

theorem not_mem_linesText {level : Nat} {nodes : List Node}
    (h : ∀ node ∈ nodes, '>' ∉ node.lineText level) : '>' ∉ linesText level nodes := by
  simp only [linesText, List.mem_flatMap, List.mem_append, not_exists, not_and, not_or]
  exact fun node hm => ⟨not_mem_marginText level, h node hm⟩

theorem not_mem_armsText {level : Nat} {arms : List NameCase}
    (ht : ∀ arm ∈ arms, IsSteadyClause arm.test)
    (h : ∀ arm ∈ arms, ∀ node ∈ arm.body, '>' ∉ node.lineText (level + 1)) :
    '>' ∉ armsText level arms := by
  simp only [armsText, List.mem_flatMap, List.mem_append, not_exists, not_and, not_or]
  refine fun arm hm => ⟨not_mem_marginText level, ?_, not_mem_linesText (h arm hm)⟩
  have htest := ht arm hm
  obtain ⟨_ | name, body⟩ := arm
  · simp [NameCase.headText]
  · simp [NameCase.headText, (htest name rfl).plain.isName.not_mem]

/-- No arrow can stand in the text of plain statements. -/
theorem Node.IsPlainStatement.not_mem {statement : Node} (h : statement.IsPlainStatement)
    (level : Nat) : '>' ∉ statement.lineText level := by
  induction h generalizing level with
  | empty => simp [lineText_empty]
  | expression hn => simp [lineText_expression, hn.plain.isName.not_mem]
  | @block body _ ih =>
    have hbody : '>' ∉ bodyText level body := by
      unfold bodyText
      split
      · exact List.not_mem_nil
      · simp [not_mem_marginText, not_mem_linesText fun node hm => ih node hm (level + 1)]
    simp [lineText_block, hbody]
  | ifThen hn _ ih => simp [lineText_ifThen, hn.plain.isName.not_mem, ih]
  | ifElse hn _ _ _ ihc iha => simp [lineText_ifElse, hn.plain.isName.not_mem, ihc, iha]
  | whileLoop hn _ ih => simp [lineText_while, hn.plain.isName.not_mem, ih]
  | doWhile hn _ ih => simp [lineText_doWhile, hn.plain.isName.not_mem, ih]
  | forLoop hs ht hp _ ih =>
    simp [lineText_forLoop, hs.not_mem, ht.not_mem, hp.not_mem, ih]
  | @forEach kind target right body awaits ht hn _ _ ih =>
    have hwords : '>' ∉ (eachWords awaits).toList := by cases awaits <;> decide
    have hkind : '>' ∉ kind.keyword.toList := by cases kind <;> decide
    simp [lineText_forEach, hwords, hkind, ht.not_mem, hn.plain.isName.not_mem, ih]
  | @switch discriminant arms hn ht _ ih =>
    have harms := not_mem_armsText ht fun arm hm node hmn => ih arm hm node hmn (level + 1 + 1)
    simp [lineText_switch, hn.plain.isName.not_mem, harms, not_mem_marginText]
  | labeled hn _ ih => simp [lineText_labeled, hn.plain.isName.not_mem, ih]
  | returnStatement ha => simp [lineText_return, ha.not_mem]
  | @jump kind label hl =>
    have hkind : '>' ∉ kind.keyword.toList := by cases kind <;> decide
    have hlabel : '>' ∉ clauseText label := by
      cases label with
      | none => exact List.not_mem_nil
      | some name => simp [clauseText, (hl name rfl).isName.not_mem]
    simp [lineText_jump, hkind, hlabel]
  | @declaration kind first others h =>
    rw [lineText_declaration]
    simp [kind.not_mem, not_mem_declaratorsText h]

end Arrows

end ScriptTree
