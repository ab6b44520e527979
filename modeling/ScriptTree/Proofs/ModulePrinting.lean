import ScriptTree.Proofs.FormulaProgram
import ScriptTree.Proofs.StringPrinting

/-!
Imports and exports survive printing, whatever names they are made of.
-/

namespace ScriptTree

namespace Printer

theorem bares_eq_map (options : PrinterOptions) (level : Nat) (nodes : List Node) :
    bares options level nodes = nodes.map (bare options level) := by
  induction nodes with
  | nil => rfl
  | cons node nodes ih =>
    change bare options level node :: bares options level nodes = _
    rw [ih, List.map_cons]

theorem toList_bracedNames {pairs : List (String × String)} {texts : List String}
    (h : texts.map String.toList = pairs.map ParserM.pairText) :
    (bracedNames texts).toList = '\x7b' :: (ParserM.bracedText pairs ++ ['\x7d']) := by
  cases pairs with
  | nil =>
    obtain rfl : texts = [] := by simpa using h
    rfl
  | cons pair pairs =>
    have hne : texts.isEmpty = false := by
      cases texts with
      | nil => cases h
      | cons => rfl
    simp [bracedNames, hne, ParserM.bracedText, ParserM.pairsText, String.toList_intercalate, h]

theorem pairTexts_eq (build : Node → Node → Node)
    (hb : ∀ first other : String, alone (build (.identifier first) (.identifier other))
      (bare {} 0 (build (.identifier first) (.identifier other))) =
        renamedText (.identifier first) (.identifier other) first other)
    (pairs : List (String × String)) :
    (pairs.map fun pair => alone (build (.identifier pair.1) (.identifier pair.2))
      (bare {} 0 (build (.identifier pair.1) (.identifier pair.2)))).map String.toList =
      pairs.map ParserM.pairText := by
  rw [List.map_map]
  refine List.map_congr_left fun pair _ => ?_
  have hsame : (Node.identifier pair.1).same (.identifier pair.2) = (pair.1 == pair.2) := rfl
  have hplaced (name : String) : placed .any (.identifier name) name = name := rfl
  rw [Function.comp_apply, hb, renamedText, hsame, hplaced, hplaced, ParserM.pairText]
  by_cases he : pair.1 = pair.2
  · simp [he]
  · simp [he]

theorem toList_importClause (clause : ParserM.ImportClause) :
    (importClause clause.nodes (bares {} 0 clause.nodes)).toList = clause.text := by
  have hzip : clause.nodes.zip (bares {} 0 clause.nodes) =
      clause.nodes.map fun node => (node, bare {} 0 node) := by
    rw [bares_eq_map]
    have hz : (clause.nodes.map id).zip (clause.nodes.map (bare {} 0)) =
        clause.nodes.map fun node => (id node, bare {} 0 node) := List.zip_map'
    rwa [List.map_id] at hz
  have hdefault (name : String) : alone (.importTarget .defaultValue (.identifier name))
      (bare {} 0 (.importTarget .defaultValue (.identifier name))) = name := String.empty_append
  have hwhole (name : String) : (alone (.importTarget .wholeModule (.identifier name))
      (bare {} 0 (.importTarget .wholeModule (.identifier name)))).toList =
        "* as ".toList ++ name.toList := String.toList_append
  obtain ⟨defaultName, others⟩ := clause
  rw [importClause, hzip]
  cases others with
  | wholeModule name =>
    cases defaultName <;>
      simp [ParserM.ImportClause.nodes, ParserM.OtherBindings.nodes, isNamedBinding,
        ParserM.ImportClause.text, hdefault, hwhole]
  | named pairs =>
    have hnamed := toList_bracedNames (pairTexts_eq .importSpecifier (fun _ _ => rfl) pairs)
    by_cases he : pairs = [] <;> cases defaultName <;>
      simp [ParserM.ImportClause.nodes, ParserM.OtherBindings.nodes, isNamedBinding,
        ParserM.ImportClause.text, List.filter_map, Function.comp_def,
        he, hnamed, hdefault]

end Printer

open ParserM

/-- The string that names a module. The spelling does not count. -/
structure ModuleSource where
  /-- What stands between the quotes. -/
  contents : String
  /-- The spelling that the string once had. -/
  raw : String

/-- An import, or an export of names. -/
inductive ModuleDeclaration where
  /-- An import. -/
  | importing (clause : ImportClause) (source : ModuleSource)
  /-- An export of names, of this module or of another. -/
  | exporting (pairs : List (String × String)) (source : Option ModuleSource)

namespace ModuleDeclaration

/-- The node of a declaration. -/
def node : ModuleDeclaration → Node
  | importing clause source =>
    .importDeclaration clause.nodes (.literal (.string source.contents) source.raw)
  | exporting pairs source => .exportNamed (exportNodes pairs)
    (source.map fun source => .literal (.string source.contents) source.raw)

/-- Names are names, and the source is the contents of some string. -/
def WellFormed : ModuleDeclaration → Prop
  | importing clause source => clause.Named ∧ IsStringValue source.contents.toList
  | exporting pairs source => (∀ pair ∈ pairs, NamePair pair) ∧
    ∀ module ∈ source, IsStringValue module.contents.toList

end ModuleDeclaration

theorem Printer.toList_import (clause : ImportClause) (source : ModuleSource) {text : List Char}
    (ht : (quoted {} source.contents).toList = text) :
    (bare {} 0 (ModuleDeclaration.importing clause source).node).toList = importText clause text := by
  have hb : bare {} 0 (ModuleDeclaration.importing clause source).node =
      "import " ++ (if clause.nodes.isEmpty then ""
        else importClause clause.nodes (bares {} 0 clause.nodes) ++ " from ") ++
        quoted {} source.contents ++ ";" := rfl
  rw [hb]
  unfold importText
  by_cases he : clause.nodes = []
  · simp [he, ht]
  · simp [he, ht, toList_importClause]

theorem Printer.toList_export (pairs : List (String × String)) (source : Option ModuleSource) :
    (bare {} 0 (ModuleDeclaration.exporting pairs source).node).toList =
      exportText pairs (source.map fun source => (quoted {} source.contents).toList) := by
  have hb : bare {} 0 (ModuleDeclaration.exporting pairs source).node =
      "export " ++ bracedNames (List.zipWith alone (exportNodes pairs)
        (bares {} 0 (exportNodes pairs))) ++
        (match source with
          | some source => " from " ++ quoted {} source.contents
          | none => "") ++ ";" := by
    cases source <;> rfl
  have hz : List.zipWith alone (exportNodes pairs) (bares {} 0 (exportNodes pairs)) =
      pairs.map fun pair => alone (.exportSpecifier (.identifier pair.1) (.identifier pair.2))
        (bare {} 0 (.exportSpecifier (.identifier pair.1) (.identifier pair.2))) := by
    rw [bares_eq_map, List.zipWith_map_right, List.zipWith_self, exportNodes, List.map_map]
    rfl
  have hnamed := toList_bracedNames (pairTexts_eq .exportSpecifier (fun _ _ => rfl) pairs)
  rw [hb, hz]
  unfold exportText
  cases source <;> simp [hnamed]

/-- A program of one declaration is printed as its text and a line feed. -/
theorem Printer.toList_toSource_declaration (declaration : ModuleDeclaration) :
    (Node.program [declaration.node]).toSource.toList =
      (bare {} 0 declaration.node).toList ++ ['\n'] := by
  have hs : asStatement declaration.node (bare {} 0 declaration.node) =
      bare {} 0 declaration.node := by
    cases declaration <;> rfl
  have hp : bare {} 0 (.program [declaration.node]) = bare {} 0 declaration.node := by
    have he : bare {} 0 (.program [declaration.node]) = "\n".intercalate
        ["" ++ asStatement declaration.node (bare {} 0 declaration.node)] := rfl
    rw [he, hs, String.intercalate_singleton, String.empty_append]
  have hne : (bare {} 0 declaration.node).isEmpty = false := by
    rw [Bool.eq_false_iff, ne_eq, String.isEmpty_iff]
    intro h0
    have hl : (bare {} 0 declaration.node).toList ≠ [] := by
      cases declaration with
      | importing clause source => rw [toList_import clause source rfl]; exact List.cons_ne_nil _ _
      | exporting pairs source => rw [toList_export]; exact List.cons_ne_nil _ _
    rw [h0] at hl
    exact hl rfl
  have ht : (Node.program [declaration.node]).toSource =
      if ({} : PrinterOptions).trailingNewline && !(bare {} 0 (.program [declaration.node])).isEmpty
      then bare {} 0 (.program [declaration.node]) ++ ({} : PrinterOptions).newLine
      else bare {} 0 (.program [declaration.node]) := rfl
  rw [ht, hp, hne]
  exact String.toList_append

theorem ParserM.length_le_pairsText (pairs : List (String × String)) :
    pairs.length ≤ (pairsText pairs).length + 1 := by
  induction pairs with
  | nil => exact Nat.zero_le _
  | cons pair pairs ih =>
    cases pairs with
    | nil => exact Nat.le_add_left _ _
    | cons next pairs =>
      rw [pairsText_cons_cons, List.length_append, List.length_cons, List.length_cons]
      simp only [List.length_cons] at ih ⊢
      omega

namespace ModuleDeclaration

/-- How many pairs of names stand in braces. -/
def count : ModuleDeclaration → Nat
  | importing clause _ => clause.others.count
  | exporting pairs _ => pairs.length

theorem count_le (declaration : ModuleDeclaration) :
    declaration.count ≤ (Printer.bare {} 0 declaration.node).toList.length + 1 := by
  have hbraced (pairs : List (String × String)) :
      pairs.length ≤ (bracedText pairs).length + 1 := by
    have hp := length_le_pairsText pairs
    cases pairs with
    | nil => exact Nat.zero_le _
    | cons pair pairs =>
      change (pair :: pairs).length ≤ (' ' :: (pairsText (pair :: pairs) ++ [' '])).length + 1
      rw [List.length_cons (a := ' '), List.length_append]
      omega
  cases declaration with
  | importing clause source =>
    rw [Printer.toList_import clause source rfl]
    unfold importText
    obtain ⟨defaultName, others⟩ := clause
    cases others with
    | wholeModule name => exact Nat.zero_le _
    | named pairs =>
      have hp := hbraced pairs
      by_cases he : pairs = []
      · simp [count, OtherBindings.count, he]
      · cases defaultName <;>
        · simp [count, OtherBindings.count, ImportClause.nodes, ImportClause.text,
            OtherBindings.nodes, he]
          omega
  | exporting pairs source =>
    have hp := hbraced pairs
    rw [Printer.toList_export, count]
    unfold exportText
    simp only [List.length_append, List.length_cons]
    omega

theorem same_identifier (name : String) : (Node.identifier name).same (.identifier name) = true :=
  beq_self_eq_true name

theorem same_clause (clause : ImportClause) : Node.sameList clause.nodes clause.nodes = true := by
  refine Node.sameList_self fun node hm => ?_
  obtain ⟨defaultName, others⟩ := clause
  rcases List.mem_append.mp hm with hm | hm
  · obtain ⟨name, -, rfl⟩ := Option.map_eq_some_iff.mp (Option.mem_toList.mp hm)
    exact same_identifier name
  · cases others with
    | wholeModule name =>
      rw [List.mem_singleton.mp hm]
      exact same_identifier name
    | named pairs =>
      obtain ⟨pair, -, rfl⟩ := List.mem_map.mp hm
      exact Bool.and_eq_true_iff.mpr ⟨same_identifier pair.1, same_identifier pair.2⟩

theorem same_exportNodes (pairs : List (String × String)) :
    Node.sameList (exportNodes pairs) (exportNodes pairs) = true := by
  refine Node.sameList_self fun node hm => ?_
  obtain ⟨pair, -, rfl⟩ := List.mem_map.mp hm
  exact Bool.and_eq_true_iff.mpr ⟨same_identifier pair.1, same_identifier pair.2⟩

/-- A declaration is read from its text, up to what stands behind it. -/
theorem leadsTo_statement {declaration : ModuleDeclaration} (h : declaration.WellFormed)
    (sub : Goal → ParserM Node) (parser : Parser) {afterOperand : Bool} {rest : List Char}
    (hf : parser.lexer.Facing .default afterOperand
      ((Printer.bare {} 0 declaration.node).toList ++ rest))
    (hr : declaration.count < parser.budget)
    (hd : parser.context.length < parser.options.maxDepth) :
    ∃ again word, parser.lexer.current = some word ∧
      LeadsTo (statement sub) parser again false rest ∧ again.same declaration.node = true := by
  have hstring (contents : String) (raw raw' : String) :
      (Node.literal (.string contents) raw).same (.literal (.string contents) raw') = true :=
    beq_self_eq_true contents
  cases declaration with
  | importing clause source =>
    obtain ⟨quote, hq, ht⟩ := Printer.exists_quotable {} h.2
    rw [Printer.toList_import clause source ht] at hf
    obtain ⟨behind, hs⟩ := shows_import hf
    obtain ⟨word, hc, hk, -⟩ := hs.token
    refine ⟨_, word, hc, (leadsTo_importDeclaration h.1 hq hf hr hd).of_eq ?_, ?_⟩
    · simp only [statement, run_bind, run_token hc, hk]
    · rw [String.ofList_toList]
      exact Bool.and_eq_true_iff.mpr ⟨same_clause clause, hstring _ _ _⟩
  | exporting pairs source =>
    obtain ⟨quoted, hq, ht⟩ : ∃ quoted : Option (Char × List Char),
        (∀ entry ∈ quoted, IsQuotable entry.1 entry.2) ∧
          source.map (fun source => (Printer.quoted {} source.contents).toList) =
            quoted.map (fun entry => quotedText entry.1 entry.2) ∧
          quoted.map (fun entry => String.ofList entry.2) =
            source.map (fun source => source.contents) := by
      cases source with
      | none =>
        refine ⟨none, fun entry he => ?_, rfl, rfl⟩
        cases he
      | some source =>
        obtain ⟨quote, hq, ht⟩ := Printer.exists_quotable {} (h.2 source rfl)
        exact ⟨some (quote, source.contents.toList), fun _ he => by cases he; exact hq,
          by rw [Option.map_some, ht]; rfl, by rw [Option.map_some, String.ofList_toList]; rfl⟩
    rw [Printer.toList_export, ht.1] at hf
    obtain ⟨behind, hs⟩ := shows_export hf
    obtain ⟨word, hc, hk, -⟩ := hs.token
    refine ⟨_, word, hc, (leadsTo_exportStatement sub h.1 hq hf hr hd).of_eq ?_, ?_⟩
    · simp only [statement, run_bind, run_token hc, hk]
    · refine Bool.and_eq_true_iff.mpr ⟨same_exportNodes pairs, ?_⟩
      obtain ⟨-, hcontents⟩ := ht
      cases quoted with
      | none =>
        cases source with
        | none => rfl
        | some source => cases hcontents
      | some entry =>
        cases source with
        | none => cases hcontents
        | some source =>
          have he : String.ofList entry.2 = source.contents := Option.some.inj hcontents
          change (String.ofList entry.2 == source.contents) = true
          rw [he, beq_self_eq_true]

end ModuleDeclaration

/-- Imports and exports survive printing. Whatever names they are made of, keywords included, and
whatever string names the module, what is printed for a declaration is read as the same one. -/
theorem Node.ofSourceWith_toSource_of_declaration {declaration : ModuleDeclaration}
    (h : declaration.WellFormed) {options : ParserOptions} (hd : 2 ≤ options.maxDepth) :
    ∃ again, Node.ofSourceWith options (Node.program [declaration.node]).toSource =
        .ok (.program [again]) ∧ again.same declaration.node = true := by
  have ht := Printer.toList_toSource_declaration declaration
  have hf := Parser.facing_started (Node.program [declaration.node]).toSource options
  rw [ht] at hf
  have hr : declaration.count + 2 ≤
      (Parser.started (Node.program [declaration.node]).toSource options).budget := by
    have hcount := declaration.count_le
    change _ ≤ 2 * (Node.program [declaration.node]).toSource.toList.length + 4
    rw [ht, List.length_append, List.length_singleton]
    omega
  obtain ⟨room, hroom⟩ : ∃ room, options.maxDepth = room + 1 := ⟨options.maxDepth - 1, by omega⟩
  generalize hp : Parser.started (Node.program [declaration.node]).toSource options = start at hf hr
  have hc : start.context = [] := by rw [← hp]; rfl
  have ho : start.operands = [] := by rw [← hp]; rfl
  have hdepth : start.options.maxDepth = room + 1 := by rw [← hp]; exact hroom
  obtain ⟨again, word, hw, hx, hsame⟩ := ModuleDeclaration.leadsTo_statement h (goal arrowAhead room)
    { start with context := .filling .program .body :: start.context } hf (Nat.lt_of_succ_lt hr)
    (by simp only [hc, List.length_cons, List.length_nil]; omega)
  obtain ⟨p₁, h₁, m₁, f₁⟩ := hx.within (fun _ _ f => f) (by simp only [hc, List.length_nil]; omega)
  have f₁' := f₁.skip (Or.inr rfl) nofun
  obtain ⟨rounds, hrounds⟩ : ∃ rounds, start.budget = rounds + 2 := ⟨start.budget - 2, by omega⟩
  have hrun : programBody (goal arrowAhead (room + 1)) start.budget start = .ok [again] p₁ := by
    have hw' : start.lexer.current = some word := hw
    have h₁' : statementAt (goal arrowAhead (room + 1)) .program .body start = .ok again p₁ := h₁
    rw [hrounds, run_programBody_of_statement hw' h₁' m₁ ho, run_programBody_nil f₁']
  refine ⟨again, ofSourceWith_of_programBody ?_ f₁'.current_nil.2, hsame⟩
  rw [hp, hroom]
  exact hrun

theorem Node.ofSourceWith_toSource_keywords :
    ∃ again, Node.ofSourceWith {} (Node.program [ModuleDeclaration.node (.importing
        ⟨some "function", .named [("as", "from"), ("for", "for"), ("in", "yield")]⟩
        ⟨"\\\x22=>\x27", ""⟩)]).toSource = .ok (.program [again]) ∧
      again.same (ModuleDeclaration.node (.importing
        ⟨some "function", .named [("as", "from"), ("for", "for"), ("in", "yield")]⟩
        ⟨"\\\x22=>\x27", ""⟩)) = true := by
  have hnames : ImportClause.Named
      ⟨some "function", .named [("as", "from"), ("for", "for"), ("in", "yield")]⟩ := by
    refine ⟨fun name hn => ?_, fun pair hm => ?_⟩
    · cases hn
      decide
    · simp only [List.mem_cons, List.not_mem_nil, or_false] at hm
      rcases hm with rfl | rfl | rfl <;> exact ⟨by decide, by decide⟩
  have hsource : IsStringValue "\\\x22=>\x27".toList :=
    ⟨"\x22\\\x22=>\x27\x22".toList, _, rfl, rfl⟩
  have h : (ModuleDeclaration.importing
      ⟨some "function", .named [("as", "from"), ("for", "for"), ("in", "yield")]⟩
      ⟨"\\\x22=>\x27", ""⟩).WellFormed := ⟨hnames, hsource⟩
  exact Node.ofSourceWith_toSource_of_declaration h (by decide)

end ScriptTree
