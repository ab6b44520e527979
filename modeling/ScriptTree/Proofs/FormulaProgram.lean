import ScriptTree.Proofs.FormulaReading
import ScriptTree.Proofs.WholeText
import ScriptTree.RoundTrip

/-!
Programs whose statements are formulas: what is printed for them is read as the same program, unless
it puts a space behind a name that is an operator before one.
-/

namespace ScriptTree

variable {names : String → Prop}

/-- No formula looks like a statement where it starts. -/
theorem Node.IsFormula.startsLikeStatement_eq {node : Node} (h : node.IsFormula names) :
    node.startsLikeStatement = false := by
  induction h with
  | conditional _ _ _ iht _ _ => rw [startsLikeStatement, iht, Bool.and_false]
  | access _ _ iho => rw [startsLikeStatement, iho, Bool.and_false]
  | computed _ _ iho _ => rw [startsLikeStatement, iho, Bool.and_false]
  | call _ _ _ ihc _ => rw [startsLikeStatement, ihc, Bool.and_false]
  | assignment _ _ _ _ ihl _ => rw [startsLikeStatement, ihl, Bool.and_false]
  | @sequence expressions htwo _ ihe =>
    match expressions, htwo with
    | first :: _ :: _, _ => rw [startsLikeStatement, ihe first List.mem_cons_self, Bool.and_false]
  | _ => rfl

/-- A program of formulas, each a statement of its own. -/
def Node.ofFormulas (formulas : List Node) : Node := .program (formulas.map .expressionStatement)

/-- The text of formulas as statements, each on a line of its own. -/
def statementsText (formulas : List Node) : List Char :=
  formulas.flatMap fun formula => formula.textIn .any ++ [';', '\n']

theorem statementsText_cons (formula : Node) (formulas : List Node) :
    statementsText (formula :: formulas) =
      formula.textIn .any ++ ';' :: '\n' :: statementsText formulas := by
  simp [statementsText]

section Printing

open Printer

theorem asStatement_formula {formula : Node} (h : formula.IsFormula names) :
    (asStatement (.expressionStatement formula) (bare {} 0 (.expressionStatement formula))).toList =
      formula.textIn .any ++ [';'] := by
  have ha : asStatement (.expressionStatement formula) (bare {} 0 (.expressionStatement formula)) =
      leading .any formula (bare {} 0 formula) ++ ";" := rfl
  rw [ha, leading, h.startsLikeStatement_eq, String.toList_append, Node.textIn]
  rfl

/-- Lines that are each ended by a line feed, from lines with line feeds between them. -/
theorem intercalate_append {line : List Char} {lines : List (List Char)} :
    ['\n'].intercalate (line :: lines) ++ ['\n'] =
      (line :: lines).flatMap fun line => line ++ ['\n'] := by
  induction lines generalizing line with
  | nil => simp
  | cons next lines ih =>
    have hcons : ['\n'].intercalate (line :: next :: lines) =
        line ++ '\n' :: ['\n'].intercalate (next :: lines) := by
      simp
    rw [hcons, List.append_assoc, List.cons_append, ih]
    simp

/-- The lines of a program of formulas. -/
theorem map_zipWith_asStatement {formulas : List Node}
    (h : ∀ formula ∈ formulas, formula.IsFormula names) :
    (List.zipWith (fun node bare => "" ++ asStatement node bare)
      (formulas.map .expressionStatement) (bares {} 0 (formulas.map .expressionStatement))).map
        String.toList =
      formulas.map fun formula => formula.textIn .any ++ [';'] := by
  induction formulas with
  | nil => rfl
  | cons formula formulas ih =>
    have hrest := ih fun other hm => h other (List.mem_cons_of_mem _ hm)
    have hfirst := asStatement_formula (h formula List.mem_cons_self)
    rw [← String.empty_append (s := asStatement _ _)] at hfirst
    exact congrArg₂ List.cons hfirst hrest

/-- The text of a program of formulas. -/
theorem toList_toSource {formulas : List Node}
    (h : ∀ formula ∈ formulas, formula.IsFormula names) :
    (Node.ofFormulas formulas).toSource.toList = statementsText formulas := by
  have htext : (bare {} 0 (Node.ofFormulas formulas)).toList =
      ['\n'].intercalate (formulas.map fun formula => formula.textIn .any ++ [';']) := by
    rw [← map_zipWith_asStatement h]
    exact String.toList_intercalate
  cases formulas with
  | nil => rfl
  | cons formula formulas =>
    have hne : (bare {} 0 (Node.ofFormulas (formula :: formulas))).isEmpty = false := by
      rw [Bool.eq_false_iff]
      intro he
      rw [String.isEmpty_iff.mp he] at htext
      have hnil := congrArg List.length htext
      cases formulas <;> simp at hnil
    have hsource : (Node.ofFormulas (formula :: formulas)).toSource =
        if true && !(bare {} 0 (Node.ofFormulas (formula :: formulas))).isEmpty then
          bare {} 0 (Node.ofFormulas (formula :: formulas)) ++ "\n"
        else bare {} 0 (Node.ofFormulas (formula :: formulas)) := rfl
    rw [hne, Bool.not_false, Bool.and_self, if_pos rfl] at hsource
    rw [hsource, String.toList_append, htext, List.map_cons]
    refine intercalate_append.trans ?_
    simp [statementsText, List.flatMap_map]

end Printing

theorem Node.IsFormula.isStatement_eq {node : Node} (h : node.IsFormula names) :
    node.isStatement = false := by
  cases h with
  | @binary operator left right => cases hr : Operator.role operator <;> rfl
  | _ => rfl

/-- A formula in whose text no space stands behind a word that is an operator before one. -/
structure Node.IsSafeFormula (node : Node) : Prop where
  formula : node.IsFormula IsOperandName
  unexposed : node.exposesWord = false

theorem Node.IsFormula.isSafe {node : Node} (h : node.IsFormula IsAsciiName) : node.IsSafeFormula :=
  ⟨h.mono fun _ hn => Or.inl hn, h.exposesWord_eq⟩

theorem statementsText_head_not_space {formulas : List Node}
    (h : ∀ formula ∈ formulas, formula.IsSafeFormula) :
    ∀ c ∈ (statementsText formulas).head?, isSpace c = false := by
  cases formulas with
  | nil => nofun
  | cons formula formulas =>
    obtain ⟨c, text, ht, hc, -⟩ := (h formula List.mem_cons_self).formula.startsWith_textIn .any
    rw [statementsText_cons, ht]
    rintro _ ⟨⟩
    exact hc

/-- No arrow stands in a program of formulas. -/
theorem arrowFree_statementsText {formulas : List Node}
    (h : ∀ formula ∈ formulas, formula.IsSafeFormula) : ArrowFree (statementsText formulas) := by
  induction formulas with
  | nil => exact arrowFree_of_not_mem List.not_mem_nil
  | cons formula formulas ih =>
    have hf := (h formula List.mem_cons_self).formula
    have hrest := ih fun other hm => h other (List.mem_cons_of_mem _ hm)
    rw [statementsText_cons, hf.textIn_any]
    refine hf.arrowFree.append_cons (hrest.cons ?_) ?_ ?_ <;> decide

namespace ParserM

/-- A formula at the start of a text is read as a statement, with its semicolon. -/
theorem arrives_formula {formula : Node} (h : formula.IsSafeFormula) (room : Nat) {parser : Parser}
    {afterOperand : Bool} {rest : List Char}
    (hb : parser.Before afterOperand (formula.textIn .any ++ ';' :: rest))
    (hc : parser.context = []) (hroom : (formula.textIn .any).length < room)
    (hd : (formula.textIn .any).length + 1 < parser.options.maxDepth) :
    parser.AtExpression ∧ ∃ afterOperand',
      Arrives (statementAt (goal arrowAhead (room + 1)) .program .body) parser
        (.expressionStatement formula) afterOperand' rest := by
  have hreads := h.formula.legible h.unexposed .any nofun
  have hsemi : (';', TokenKind.semicolon) ∈ marks := by decide
  have hf : Place.any.Allows (formula.endsIn .any) (';' :: rest) :=
    ⟨rfl, fun _ c hc => by cases hc; rfl⟩
  have hat := ReadsAs.atExpression hreads hb hf rfl (Nat.le_of_lt hroom)
    (by rw [hc, List.length_nil]; omega)
  refine ⟨hat, arrives_statementAt hat h.formula.isStatement_eq ?_ (Or.inl rfl) ?_⟩
  · exact ReadsAs.arrives hreads (hb.enter _) hf rfl (halts_mark hsemi rfl) hroom
      (by simp only [hc, List.length_cons, List.length_nil]; omega)
  · rw [hc, List.length_nil]
    omega

/-- A program of formulas is read statement by statement. -/
theorem run_programBody_formulas {formulas : List Node}
    (h : ∀ formula ∈ formulas, formula.IsSafeFormula) {room rounds : Nat} {parser : Parser}
    {afterOperand : Bool} (hb : parser.Before afterOperand (statementsText formulas))
    (hc : parser.context = []) (ho : parser.operands = []) (hr : formulas.length < rounds)
    (hroom : (statementsText formulas).length ≤ room)
    (hd : (statementsText formulas).length ≤ parser.options.maxDepth) :
    ∃ after, programBody (goal arrowAhead room) rounds parser =
        .ok (formulas.map .expressionStatement) after ∧ after.lexer.exhausted = true := by
  induction formulas generalizing parser afterOperand rounds with
  | nil =>
    obtain ⟨rounds, rfl⟩ := Nat.exists_eq_succ_of_ne_zero (Nat.ne_zero_of_lt hr)
    exact ⟨parser, run_programBody_nil hb.facing, hb.facing.current_nil.2⟩
  | cons formula formulas ih =>
    obtain ⟨rounds, rfl⟩ := Nat.exists_eq_succ_of_ne_zero (Nat.ne_zero_of_lt hr)
    have hrest : ∀ other ∈ formulas, other.IsSafeFormula := fun other hm =>
      h other (List.mem_cons_of_mem _ hm)
    rw [statementsText_cons] at hb hroom hd
    simp only [List.length_append, List.length_cons] at hroom hd
    obtain ⟨room, rfl⟩ : ∃ room', room = room' + 1 := ⟨room - 1, by omega⟩
    obtain ⟨hat, afterOperand', p₁, h₁, m₁, b₁⟩ := arrives_formula (h formula List.mem_cons_self)
      room hb hc (by omega) (by omega)
    obtain ⟨_, _, _, _, hon, -⟩ := hat
    obtain ⟨word, hw, -⟩ := hon.shows.token
    have hr' : formulas.length < rounds := Nat.lt_of_succ_lt_succ hr
    obtain ⟨after, h₂, hx⟩ := ih hrest
      (b₁.skip (Or.inr rfl) (statementsText_head_not_space hrest)) (m₁.context.trans hc)
      (m₁.operands.trans ho) hr' (by omega) (by rw [m₁.options]; omega)
    refine ⟨after, ?_, hx⟩
    rw [run_programBody_of_statement hw h₁ m₁ ho, h₂]
    rfl

end ParserM

theorem length_le_statementsText (formulas : List Node) :
    formulas.length ≤ (statementsText formulas).length := by
  induction formulas with
  | nil => exact Nat.le_refl _
  | cons formula formulas ih =>
    simp only [statementsText_cons, List.length_append, List.length_cons]
    omega

/-- A text of formulas as statements is read as the program of these formulas. -/
theorem ofSourceWith_of_statementsText {formulas : List Node}
    (h : ∀ formula ∈ formulas, formula.IsSafeFormula) {options : ParserOptions} {source : String}
    (hs : source.toList = statementsText formulas) (hd : source.length ≤ options.maxDepth) :
    Node.ofSourceWith options source = .ok (Node.ofFormulas formulas) := by
  have hb := Parser.before_started options (hs.symm ▸ arrowFree_statementsText h)
  have hbudget := hb.budget
  have hlen := length_le_statementsText formulas
  rw [← String.length_toList, hs] at hd
  rw [hs] at hb hbudget
  obtain ⟨after, hrun, hx⟩ := ParserM.run_programBody_formulas h hb rfl rfl
    (Nat.lt_of_le_of_lt hlen hbudget) hd hd
  exact ParserM.ofSourceWith_of_programBody hrun hx

/-- The parentheses of the printer are sufficient: a program of formulas, whichever way they are
built, is printed as a text that is read as the same program, if the limit on constructs inside each
other is not less than the length of the text. -/
theorem Node.ofSourceWith_toSource {formulas : List Node}
    (h : ∀ formula ∈ formulas, formula.IsFormula IsAsciiName) {options : ParserOptions}
    (hd : (Node.ofFormulas formulas).toSource.length ≤ options.maxDepth) :
    Node.ofSourceWith options (Node.ofFormulas formulas).toSource =
      .ok (Node.ofFormulas formulas) :=
  ofSourceWith_of_statementsText (fun formula hm => (h formula hm).isSafe) (toList_toSource h) hd

theorem Node.ofSourceWith_toSource_nested :
    Node.ofSourceWith {} (Node.ofFormulas [.assignment "+="
        (.member (.identifier "a") (.identifier "class") false)
        (.conditional (.unary "-" (.unary "-" (.identifier "b") true) true)
          (.call .plain (.sequence [.identifier "c", .thisExpression]) [])
          (some (.binary (Operator.role "in") "in" (.identifier "d") (.identifier "e"))))]).toSource =
      .ok (Node.ofFormulas [.assignment "+="
        (.member (.identifier "a") (.identifier "class") false)
        (.conditional (.unary "-" (.unary "-" (.identifier "b") true) true)
          (.call .plain (.sequence [.identifier "c", .thisExpression]) [])
          (some (.binary (Operator.role "in") "in" (.identifier "d") (.identifier "e"))))]) := by
  have hname {name : String} (hp : IsPlainName name.toList)
      (ha : name.toList.all (fun c => decide (c.toNat < 0x80)) = true) :
      (Node.identifier name).IsFormula IsAsciiName :=
    .identifier ⟨hp, fun c hc => by simpa using List.all_eq_true.mp ha c hc⟩
  have hunary {argument : Node} (ha : argument.IsFormula IsAsciiName) :
      (Node.unary "-" argument true).IsFormula IsAsciiName :=
    .unary (by decide) ha
  refine Node.ofSourceWith_toSource (fun formula hm => ?_) (by decide +kernel)
  rw [List.mem_singleton.mp hm]
  refine .assignment (by decide) (.access (hname ?_ ?_) ?_) rfl (.conditional
    (hunary (hunary (hname ?_ ?_))) (.call (.sequence (by decide) ?_) rfl nofun)
    (.binary (by decide) (hname ?_ ?_) (hname ?_ ?_)))
  case refine_6 =>
    intro expression hm
    simp only [List.mem_cons, List.not_mem_nil, or_false] at hm
    rcases hm with rfl | rfl
    · exact hname (by decide) (by decide)
    · exact .this
  all_goals decide

namespace Node

theorem sameList_self {nodes : List Node} (h : ∀ node ∈ nodes, node.same node = true) :
    sameList nodes nodes = true := by
  induction nodes with
  | nil => rfl
  | cons node nodes ih =>
    have hrest := ih fun other hm => h other (List.mem_cons_of_mem _ hm)
    exact Bool.and_eq_true_iff.mpr ⟨h node List.mem_cons_self, hrest⟩

/-- A formula holds no number, so it is the same as itself. -/
theorem IsFormula.same_self {node : Node} (h : node.IsFormula names) : node.same node = true := by
  induction h with
  | @identifier name _ => exact beq_self_eq_true name
  | this => rfl
  | @unary operator argument _ _ ih =>
    change (operator == operator && argument.same argument && true == true) = true
    rw [ih, beq_self_eq_true]
    rfl
  | @binary operator left right _ _ _ ihl ihr =>
    change (Operator.role operator == Operator.role operator && operator == operator &&
      left.same left && right.same right) = true
    rw [ihl, ihr, beq_self_eq_true, beq_self_eq_true]
    rfl
  | @conditional test consequent alternate _ _ _ iht ihc iha =>
    change (test.same test && consequent.same consequent && alternate.same alternate) = true
    rw [iht, ihc, iha]
    rfl
  | @access owner name _ _ iho =>
    change (owner.same owner && name == name && false == false) = true
    rw [iho, beq_self_eq_true]
    rfl
  | @computed owner key _ _ iho ihk =>
    change (owner.same owner && key.same key && true == true) = true
    rw [iho, ihk]
    rfl
  | @call callee arguments _ _ _ ihc iha =>
    change (CallRole.plain == CallRole.plain && callee.same callee && sameList arguments arguments) =
      true
    rw [ihc, sameList_self iha]
    rfl
  | @assignment operator left right _ _ _ _ ihl ihr =>
    change (operator == operator && left.same left && right.same right) = true
    rw [ihl, ihr, beq_self_eq_true]
    rfl
  | sequence _ _ ihe => exact sameList_self ihe

theorem same_ofFormulas {formulas : List Node}
    (h : ∀ formula ∈ formulas, formula.IsFormula names) :
    (ofFormulas formulas).same (ofFormulas formulas) = true := by
  refine sameList_self fun statement hm => ?_
  obtain ⟨formula, hf, rfl⟩ := List.mem_map.mp hm
  exact (h formula hf).same_self

end Node

/-- A text that is a program of formulas, however it is written, survives the round trip if what is
printed for it is not longer than the limit on constructs inside each other, and puts no space behind
a name that is an operator before one. Without such a condition a text need not survive: a word that
is an operator before a space is a name before other symbols, and printing it puts a space there. -/
theorem RoundTrip.run_of_formulas {source : String} {formulas : List Node}
    (h : ∀ formula ∈ formulas, formula.IsSafeFormula)
    (hs : Node.ofSource source = .ok (Node.ofFormulas formulas))
    (hl : (Node.ofFormulas formulas).toSource.length ≤ ParserOptions.maxDepth {}) :
    run source = .ok (Node.ofFormulas formulas).toSource := by
  have hagain : Node.ofSource (Node.ofFormulas formulas).toSource =
      .ok (Node.ofFormulas formulas) :=
    ofSourceWith_of_statementsText h (toList_toSource fun formula hm => (h formula hm).formula) hl
  have hsame := Node.same_ofFormulas fun formula hm => (h formula hm).formula
  simp only [run, hs, hagain, hsame, if_true]

theorem RoundTrip.run_of_formulas_negated :
    run "!of;\n" = .ok "!of;\n" ∧
      (match run "of=1" with
        | .error (.unparsedAgain _ printed) => printed == "of = 1;\n"
        | _ => false) = true := by
  have hformulas : ∀ formula ∈ [Node.unary "!" (.identifier "of") true], formula.IsSafeFormula := by
    intro formula hm
    rw [List.mem_singleton.mp hm]
    exact ⟨.unary (by decide) (.identifier (Or.inr (by decide))), rfl⟩
  have hs : Node.ofSource "!of;\n" =
      .ok (Node.ofFormulas [Node.unary "!" (.identifier "of") true]) :=
    ofSourceWith_of_statementsText hformulas (by decide +kernel) (by decide +kernel)
  refine ⟨?_, by decide +kernel⟩
  have hrun := run_of_formulas hformulas hs (by decide +kernel)
  rw [hrun]
  exact congrArg Except.ok (by decide +kernel)

end ScriptTree
