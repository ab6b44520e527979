import ScriptTree.Proofs.Brackets
import ScriptTree.Proofs.MarkedNames
import ScriptTree.Proofs.StatementPrinting

/-!
Templates with names in their substitutions, read and printed.

A template is read in turns: a piece of its text, then the tokens of a substitution. The brace that
closes a substitution is the last token read there, so the next piece starts right behind it. What is
read is printed as it was written, since nothing in the text of a template is changed.
-/

namespace ScriptTree

open ParserM

/-- Whether a text is a piece of a template. Gone through from the left, with each backslash taking the
next character with it, it holds no backtick and no opening of a substitution, and no backslash is
left over. -/
def isTemplatePiece : List Char → Bool
  | [] => true
  | '\\' :: text => match text with
    | [] => false
    | _ :: text => isTemplatePiece text
  | c :: text => c != '\x60' && !(c == '$' && text.head? == some '\x7b') && isTemplatePiece text

/-- A substitution of a template: the name that it holds, and the piece of text behind it. -/
structure Substitution where
  name : String
  piece : String

namespace Substitution

/-- How a substitution is written, with the text behind it. -/
def text (substitution : Substitution) : List Char :=
  '$' :: '\x7b' :: (substitution.name.toList ++ '\x7d' :: substitution.piece.toList)

/-- The name is none of the keywords, and the text is a piece of a template. -/
structure IsPlain (substitution : Substitution) : Prop where
  name : IsPlainName substitution.name.toList
  piece : isTemplatePiece substitution.piece.toList = true

/-- The name is read as such. -/
def IsSteady (substitution : Substitution) : Prop := IsSteadyName substitution.name.toList

end Substitution

/-- How a template is written from behind its first piece of text on. -/
def substitutionsText (substitutions : List Substitution) : List Char :=
  substitutions.flatMap Substitution.text ++ ['\x60']

/-- How a template is written. -/
def templateText (first : String) (substitutions : List Substitution) : List Char :=
  '\x60' :: (first.toList ++ substitutionsText substitutions)

/-- The pieces of text of a template. -/
def pieceNodes (first : String) (substitutions : List Substitution) : List Node :=
  (first :: substitutions.map Substitution.piece).map .templateElement

/-- The operands in the substitutions of a template. -/
def nameNodes (substitutions : List Substitution) : List Node :=
  substitutions.map fun substitution => .identifier substitution.name

/-- A template as a tree. -/
def templateNode (first : String) (substitutions : List Substitution) : Node :=
  .templateLiteral (pieceNodes first substitutions) (nameNodes substitutions)

theorem substitutionsText_cons (substitution : Substitution) (substitutions : List Substitution)
    (rest : List Char) : substitutionsText (substitution :: substitutions) ++ rest =
      ['$', '\x7b'] ++ (substitution.name.toList ++ '\x7d' ::
        (substitution.piece.toList ++ (substitutionsText substitutions ++ rest))) := by
  simp [substitutionsText, Substitution.text]

theorem length_le_substitutionsText (substitutions : List Substitution) :
    substitutions.length < (substitutionsText substitutions).length := by
  induction substitutions with
  | nil => exact Nat.zero_lt_one
  | cons substitution substitutions ih =>
    have htext := substitutionsText_cons substitution substitutions []
    rw [List.append_nil, List.append_nil] at htext
    rw [htext, List.length_cons]
    simp only [List.length_append, List.length_cons, List.length_nil]
    omega

/-! ### Pieces of text -/

section Pieces

variable {piece stop rest : List Char}

/-- What ends a piece of text: the mark of a template, or the opening of a substitution. -/
def pieceEnds : List (List Char) := [['\x60'], ['$', '\x7b']]

theorem head?_of_pieceEnds (hs : stop ∈ pieceEnds) : ∃ c behind, stop = c :: behind ∧ c ≠ '\x7b' := by
  have hall : ∀ stop ∈ pieceEnds, ∃ c behind, stop = c :: behind ∧ c ≠ '\x7b' := by
    simp [pieceEnds]
  exact hall stop hs

/-- A piece of text is read up to what ends it, by induction along the piece. -/
theorem templateBody?_piece (hp : isTemplatePiece piece = true) (hs : stop ∈ pieceEnds) :
    Scan.templateBody? (piece ++ (stop ++ rest)) = some (piece, stop) := by
  fun_induction isTemplatePiece piece with
  | case1 =>
    simp only [pieceEnds, List.mem_cons, List.not_mem_nil, or_false] at hs
    rcases hs with rfl | rfl <;> rfl
  | case2 => cases hp
  | case3 c text ih => simp only [List.cons_append, Scan.templateBody?, ih hp, Option.map_some]
  | case4 c text hne ih =>
    simp only [Bool.and_eq_true, bne_iff_ne, ne_eq, Bool.not_eq_true', Bool.and_eq_false_iff,
      beq_eq_false_iff_ne] at hp
    obtain ⟨⟨hmark, hdollar⟩, hp⟩ := hp
    have hescape : ∀ (d : Char) (behind : List Char), c = '\\' → text ++ (stop ++ rest) = d :: behind →
        False :=
      fun _ _ hc _ => hne hc
    -- no brace follows a dollar sign in the piece, and no end of a piece starts with one
    have hopening : ∀ behind, c = '$' → text ++ (stop ++ rest) = '\x7b' :: behind → False := by
      intro behind hc hbrace
      cases text with
      | nil =>
        obtain ⟨d, behind', rfl, hd⟩ := head?_of_pieceEnds hs
        exact hd (List.cons.inj hbrace).1
      | cons d text =>
        obtain rfl : d = '\x7b' := (List.cons.inj hbrace).1
        exact hdollar.elim (fun h => h hc) fun h => h rfl
    rw [List.cons_append, Scan.templateBody?.eq_4 _ _ hescape hopening,
      if_neg (by simpa using hne), if_neg (by simpa using hmark), ih hp, Option.map_some]

/-- What is read up to an end is a piece of text, by induction along it. -/
theorem isTemplatePiece_of_templateBody? {text : List Char}
    (h : Scan.templateBody? text = some (piece, stop)) :
    isTemplatePiece piece = true ∧ stop ∈ pieceEnds := by
  fun_induction Scan.templateBody? text generalizing piece stop with
  | case1 | case4 => cases h
  | case2 c text ih =>
    obtain ⟨⟨body, stop⟩, hb, he⟩ := Option.map_eq_some_iff.mp h
    cases he
    obtain ⟨hp, hs⟩ := ih hb
    exact ⟨hp, hs⟩
  | case3 =>
    cases h
    exact ⟨rfl, List.mem_cons_of_mem _ List.mem_cons_self⟩
  | case5 =>
    cases h
    exact ⟨rfl, List.mem_cons_self⟩
  | case6 c text _ hopen hno hmark ih =>
    obtain ⟨⟨body, stop⟩, hb, he⟩ := Option.map_eq_some_iff.mp h
    cases he
    obtain ⟨hp, hs⟩ := ih hb
    -- a brace behind a dollar sign in the piece would be one in the text
    have hbrace : ¬(c = '$' ∧ body.head? = some '\x7b') := by
      rintro ⟨rfl, hhead⟩
      obtain ⟨body, rfl⟩ := List.head?_eq_some_iff.mp hhead
      obtain ⟨behind, htext⟩ := Scan.templateBody?_isPrefix hb
      exact hopen _ rfl htext.symm
    have hescape : c = '\\' → False := fun hc => hno (beq_iff_eq.mpr hc)
    have hmark' : c ≠ '\x60' := fun hc => hmark (beq_iff_eq.mpr hc)
    refine ⟨?_, hs⟩
    rw [isTemplatePiece.eq_4 _ _ hescape]
    simpa [hp, hmark'] using not_and_or.mp hbrace

/-- So what is read as a piece of text is just that. -/
theorem templateBody?_eq_some_iff {text : List Char} :
    Scan.templateBody? text = some (piece, stop) ↔
      isTemplatePiece piece = true ∧ stop ∈ pieceEnds ∧ piece ++ stop <+: text := by
  constructor
  · intro h
    obtain ⟨hp, hs⟩ := isTemplatePiece_of_templateBody? h
    exact ⟨hp, hs, Scan.templateBody?_isPrefix h⟩
  · rintro ⟨hp, hs, behind, rfl⟩
    rw [List.append_assoc]
    exact templateBody?_piece hp hs

theorem opensSubstitution_piece (hs : stop ∈ pieceEnds) :
    Lookahead.opensSubstitution (String.ofList (piece ++ stop)) = (stop == ['$', '\x7b']) := by
  simp only [pieceEnds, List.mem_cons, List.not_mem_nil, or_false] at hs
  rcases hs with rfl | rfl <;> simp [Lookahead.opensSubstitution, List.isSuffixOf, List.isPrefixOf]

/-- In front of a piece of text, the piece is the next token, with what ends it. -/
theorem Lexer.next_piece {lexer : Lexer} (hp : isTemplatePiece piece = true) (hs : stop ∈ pieceEnds)
    (h : lexer.cursor.rest = piece ++ (stop ++ rest)) :
    ∃ chunk, (lexer.next .templateText).current = some chunk ∧ chunk.value = String.ofList piece ∧
      Lookahead.opensSubstitution chunk.raw = (stop == ['$', '\x7b']) ∧
      (lexer.next .templateText).cursor.rest = rest := by
  have hne : lexer.cursor.rest ≠ [] := by
    obtain ⟨c, behind, rfl, -⟩ := head?_of_pieceEnds hs
    rw [h]
    exact List.append_ne_nil_of_right_ne_nil piece (List.cons_ne_nil _ _)
  have hstop : stop ≠ [] := by
    obtain ⟨c, behind, rfl, -⟩ := head?_of_pieceEnds hs
    exact List.cons_ne_nil _ _
  have hfirst : Rule.first? .templateText lexer.afterOperand lexer.cursor.rest =
      some (Rule.templateChunk, ⟨[], piece, stop⟩) :=
    Rule.first?_templateText hstop (by rw [h]; exact templateBody?_piece hp hs) _
  have hraw : (⟨[], piece, stop⟩ : Lexeme).raw = piece ++ stop := by simp [Lexeme.raw]
  rw [next_template hne hfirst]
  refine ⟨_, rfl, rfl, ?_, ?_⟩
  · rw [hraw]
    exact opensSubstitution_piece hs
  · simp [emit, Cursor.advance, hraw, h]

end Pieces

/-! ### Templates -/

namespace ParserM

variable {parser : Parser} {first : String} {substitutions : List Substitution} {rest : List Char}

/-- The last piece of a template. -/
theorem leads_templateParts_last {sub : Goal → ParserM Node} (hp : isTemplatePiece first.toList = true)
    (h : parser.lexer.cursor.rest = first.toList ++ (['\x60'] ++ rest)) (rounds : Nat) :
    Leads (templateParts sub (rounds + 1)) parser ([.templateElement first], [])
      fun after => after.lexer.cursor.rest = rest := by
  obtain ⟨chunk, hc, hv, ho, hr⟩ := Lexer.next_piece hp (List.mem_cons_self) h
  rw [String.ofList_toList] at hv
  have hopens : Lookahead.opensSubstitution chunk.raw = false := ho
  refine ⟨{ parser with lexer := parser.lexer.next .templateText }, ?_, ⟨_, _, rfl⟩, hr⟩
  simp only [templateParts, nextTokenIn, run_bind, run_modifyLexer, run_current, hc, hopens,
    Bool.false_eq_true, if_false, hv, run_pure]

/-- A template from behind a substitution's opening on. -/
def substitutionParts (sub : Goal → ParserM Node) (first : String) (rounds : Nat) :
    ParserM (List Node × List Node) := do
  let expression ← operandAt sub .templateLiteral .expressions
  if ← isAt .closeBrace then
    let (texts, expressions) ← templateParts sub rounds
    pure (.templateElement first :: texts, expression :: expressions)
  else reject fun parser => parser.wanting "\x7d"

/-- Behind a piece of text that opens a substitution, an operand is read. -/
theorem exists_substitutionParts {sub : Goal → ParserM Node} (hp : isTemplatePiece first.toList = true)
    (h : parser.lexer.cursor.rest = first.toList ++ (['$', '\x7b'] ++ rest)) (rounds : Nat) :
    ∃ between afterOperand, parser.Moved between ∧
      between.lexer.Facing .default afterOperand rest ∧
      templateParts sub (rounds + 1) parser = substitutionParts sub first rounds between := by
  have hends : ['$', '\x7b'] ∈ pieceEnds := List.mem_cons_of_mem _ List.mem_cons_self
  obtain ⟨chunk, hc, hv, ho, hr⟩ := Lexer.next_piece hp hends h
  rw [String.ofList_toList] at hv
  have hopens : Lookahead.opensSubstitution chunk.raw = true := ho
  let opened : Lexer := parser.lexer.next .templateText
  refine ⟨{ parser with lexer := opened.next .default }, opened.afterOperand, ⟨_, _, rfl⟩,
    ⟨opened, false, hr, rfl, Lexer.next_eq_nextFrom _ _⟩, ?_⟩
  simp only [templateParts, nextTokenIn, nextToken, run_bind, run_modifyLexer, run_current, hc, hopens,
    if_true, hv, substitutionParts, opened]

theorem isEnclosing_substitution : (Frame.filling .templateLiteral .expressions).isEnclosing = true := rfl

theorem mem_closingMarks_brace : '\x7d' ∈ closingMarks := by decide

section Substitutions

variable {afterOperand : Bool}

/-- A steady name in a substitution is read, up to the piece of text behind its closing brace. -/
theorem leads_substitution {name : String} (hn : IsSteadyName name.toList)
    (h : parser.lexer.Facing .default afterOperand (name.toList ++ '\x7d' :: rest)) (room : Nat)
    (hb : 0 < parser.budget) (hd : parser.context.length < parser.options.maxDepth) :
    Leads (operandAt (goal arrowAhead (room + 1)) .templateLiteral .expressions) parser
      (.identifier name) fun after =>
        isAt .closeBrace after = .ok true after ∧ after.lexer.cursor.rest = rest := by
  obtain ⟨after, hx, hm, hf⟩ := leadsTo_markedName hn (.closing mem_closingMarks_brace) h
    isEnclosing_substitution (halts_closeBrace _ rest) room hb hd
  have hbrace := hf.shows_brace .closeBrace (by decide)
  exact ⟨after, hx, hm, run_isAt_of_shows hbrace .closeBrace, hbrace.rest⟩

/-- A template with steady names in its substitutions, from behind its opening mark on, by induction on
the substitutions. -/
theorem leads_templateParts (hfirst : isTemplatePiece first.toList = true)
    (hp : ∀ substitution ∈ substitutions, substitution.IsPlain)
    (hs : ∀ substitution ∈ substitutions, substitution.IsSteady)
    (h : parser.lexer.cursor.rest = first.toList ++ (substitutionsText substitutions ++ rest))
    (room : Nat) {rounds : Nat} (hr : substitutions.length < rounds) (hb : 0 < parser.budget)
    (hd : parser.context.length < parser.options.maxDepth) :
    Leads (templateParts (goal arrowAhead (room + 1)) rounds) parser
      (pieceNodes first substitutions, nameNodes substitutions)
      fun after => after.lexer.cursor.rest = rest := by
  obtain ⟨rounds, rfl⟩ := Nat.exists_eq_succ_of_ne_zero (Nat.ne_zero_of_lt hr)
  induction substitutions generalizing parser first rounds with
  | nil => exact leads_templateParts_last hfirst h rounds
  | cons substitution substitutions ih =>
    rw [substitutionsText_cons] at h
    obtain ⟨p₁, afterOperand, m₁, f₁, hx⟩ := exists_substitutionParts hfirst h rounds
    obtain ⟨p₂, h₂, m₂, hat, hrest⟩ := leads_substitution (hs substitution List.mem_cons_self) f₁ room
      (by rw [m₁.budget]; exact hb) (by rw [m₁.context, m₁.options]; exact hd)
    -- the brace was the last token that was read, so the next piece starts at the cursor
    have m₁₂ := m₁.trans m₂
    obtain ⟨rounds, rfl⟩ := Nat.exists_eq_succ_of_ne_zero (Nat.ne_zero_of_lt (Nat.lt_of_succ_lt_succ hr))
    obtain ⟨p₃, h₃, m₃, hrest'⟩ := ih (hp substitution List.mem_cons_self).piece
      (fun other hin => hp other (List.mem_cons_of_mem _ hin))
      (fun other hin => hs other (List.mem_cons_of_mem _ hin)) hrest
      (by rw [m₁₂.budget]; exact hb) (by rw [m₁₂.context, m₁₂.options]; exact hd) rounds
      (Nat.lt_of_succ_lt_succ hr)
    refine ⟨p₃, hx.trans ?_, m₁₂.trans m₃, hrest'⟩
    simp only [substitutionParts, run_bind, h₂, hat, if_true, h₃, run_pure]
    rfl

/-- A template with a misread name in a substitution is not read, by induction on the substitutions
before it. -/
theorem fails_templateParts (hfirst : isTemplatePiece first.toList = true)
    (hp : ∀ substitution ∈ substitutions, substitution.IsPlain)
    (hs : ∃ substitution ∈ substitutions, ¬substitution.IsSteady)
    (h : parser.lexer.cursor.rest = first.toList ++ (substitutionsText substitutions ++ rest))
    (room rounds : Nat) (hb : 0 < parser.budget) (hd : parser.context.length < parser.options.maxDepth) :
    Fails (templateParts (goal arrowAhead (room + 1)) rounds) parser := by
  induction substitutions generalizing parser first rounds with
  | nil =>
    obtain ⟨substitution, hin, -⟩ := hs
    cases hin
  | cons substitution substitutions ih =>
    cases rounds with
    | zero => exact ⟨_, _, rfl⟩
    | succ rounds =>
      have hplain := hp substitution List.mem_cons_self
      rw [substitutionsText_cons] at h
      obtain ⟨p₁, afterOperand, m₁, f₁, hx⟩ := exists_substitutionParts hfirst h rounds
      rw [Fails, hx]
      by_cases hsteady : substitution.IsSteady
      -- a steady name is read, and the misread one stands in a later substitution
      · have hlater : ∃ other ∈ substitutions, ¬other.IsSteady :=
          ((List.exists_mem_cons_iff _ substitution substitutions).mp hs).resolve_left
            (not_not_intro hsteady)
        obtain ⟨p₂, h₂, m₂, hat, hrest⟩ := leads_substitution hsteady f₁ room
          (by rw [m₁.budget]; exact hb) (by rw [m₁.context, m₁.options]; exact hd)
        have m₁₂ := m₁.trans m₂
        obtain ⟨failure, after, h₃⟩ := ih hplain.piece
          (fun other hin => hp other (List.mem_cons_of_mem _ hin)) hlater hrest rounds
          (by rw [m₁₂.budget]; exact hb) (by rw [m₁₂.context, m₁₂.options]; exact hd)
        refine ⟨failure, after, ?_⟩
        simp only [substitutionParts, run_bind, h₂, hat, if_true, h₃]
      · have hname : Fails (operandAt (goal arrowAhead (room + 1)) .templateLiteral .expressions) p₁ :=
          fails_markedName (hplain.name.misread hsteady) hplain.name.isName mem_closingMarks_brace f₁
            isEnclosing_substitution room
        exact hname.bind _

end Substitutions

section Whole

variable {afterOperand : Bool} (hfirst : isTemplatePiece first.toList = true)
  (hp : ∀ substitution ∈ substitutions, substitution.IsPlain)

/-- In front of a template, its mark is the current token. -/
theorem shows_backtick
    (h : parser.lexer.Facing .default afterOperand (templateText first substitutions)) :
    parser.lexer.Shows .backtick none ['\x60'] true
      (first.toList ++ (substitutionsText substitutions ++ [])) := by
  have hbegins (rest : List Char) : Begins .default afterOperand .backtick none ['\x60'] rest :=
    ⟨_, Rule.first?_bracket (by decide : ('\x60', .backtick) ∈ brackets) afterOperand rest, rfl, rfl⟩
  have hface : parser.lexer.Facing .default afterOperand
      (['\x60'] ++ (first.toList ++ substitutionsText substitutions)) := h
  rw [List.append_nil]
  exact hface.shows (hbegins _) rfl rfl

theorem run_fresh_template {sub : Goal → ParserM Node} {word : Token}
    (hw : parser.lexer.current = some word) (hk : word.kind = .backtick) :
    fresh arrowAhead sub parser = template sub parser := by
  simp only [fresh, run_bind, run_token hw, opening, hk]

theorem run_statement_template {sub : Goal → ParserM Node} {word : Token}
    (hw : parser.lexer.current = some word) (hk : word.kind = .backtick) :
    statement sub parser = expressionStatement sub parser := by
  simp only [statement, run_bind, run_token hw, hk]

include hfirst hp

/-- A template that is all of the text is read as a statement. -/
theorem leadsTo_templateStatement (hs : ∀ substitution ∈ substitutions, substitution.IsSteady)
    (h : parser.lexer.Facing .default afterOperand (templateText first substitutions)) (room : Nat)
    (hb : substitutions.length < parser.budget)
    (hd : parser.context.length + 1 < parser.options.maxDepth) :
    ∃ afterOperand', LeadsTo (statement (goal arrowAhead (room + 2))) parser
      (.expressionStatement (templateNode first substitutions)) afterOperand' [] := by
  have hshows := shows_backtick h
  obtain ⟨word, hw, hk, -⟩ := hshows.token
  have hrest : (inExpression parser).lexer.cursor.rest =
      first.toList ++ (substitutionsText substitutions ++ []) := hshows.rest
  obtain ⟨p₁, h₁, m₁, hend⟩ :=
    leads_templateParts hfirst hp hs hrest room hb (Nat.zero_lt_of_lt hb) hd
  have hfresh : LeadsTo (fresh arrowAhead (goal arrowAhead (room + 1))) (inExpression parser)
      (templateNode first substitutions) p₁.lexer.afterOperand [] := by
    refine ⟨{ p₁ with lexer := p₁.lexer.next .default }, ?_, m₁.trans ⟨_, _, rfl⟩,
      p₁.lexer, false, hend, rfl, Lexer.next_eq_nextFrom _ _⟩
    have hbudget : (inExpression parser).budget = parser.budget := rfl
    have hword : (inExpression parser).lexer.current = some word := hw
    rw [run_fresh_template hword hk]
    simp only [template, nextToken, run_bind, run_budget, hbudget, h₁, run_modifyLexer, run_pure,
      templateNode]
  have hoperand : LeadsTo (operandAt (goal arrowAhead (room + 2)) .expressionStatement .expression)
      parser (templateNode first substitutions) p₁.lexer.afterOperand [] :=
    leadsTo_lastOperand hfresh rfl (Nat.zero_lt_of_lt hb) (Nat.lt_of_succ_lt hd)
  exact ⟨_, (leadsTo_expressionStatement rfl hoperand).of_eq (run_statement_template hw hk)⟩

theorem fails_templateStatement (hs : ∃ substitution ∈ substitutions, ¬substitution.IsSteady)
    (h : parser.lexer.Facing .default afterOperand (templateText first substitutions)) (room : Nat)
    (hb : 0 < parser.budget) (hd : parser.context.length + 1 < parser.options.maxDepth) :
    Fails (statement (goal arrowAhead (room + 2))) parser := by
  have hshows := shows_backtick h
  obtain ⟨word, hw, hk, -⟩ := hshows.token
  have hrest : (inExpression parser).lexer.cursor.rest =
      first.toList ++ (substitutionsText substitutions ++ []) := hshows.rest
  have hparts : Fails (templateParts (goal arrowAhead (room + 1)) parser.budget) (inExpression parser) :=
    fails_templateParts hfirst hp hs hrest room parser.budget hb hd
  obtain ⟨failure, after, h₁⟩ := hparts
  have hfresh : Fails (fresh arrowAhead (goal arrowAhead (room + 1))) (inExpression parser) := by
    have hbudget : (inExpression parser).budget = parser.budget := rfl
    have hword : (inExpression parser).lexer.current = some word := hw
    refine ⟨failure, after, ?_⟩
    rw [run_fresh_template hword hk]
    simp only [template, run_bind, run_budget, hbudget, h₁]
  have hoperand : Fails (operandAt (goal arrowAhead (room + 2)) .expressionStatement .expression)
      parser := Fails.within (hfresh.operand rfl)
  have hstatement : Fails (expressionStatement (goal arrowAhead (room + 2))) parser := hoperand.bind _
  exact hstatement.of_eq (run_statement_template hw hk)

end Whole

end ParserM

/-! ### Printing -/

section Printing

open Printer

variable (level : Nat)

theorem zipWith_pieces (pieces : List String) :
    List.zipWith alone (pieces.map .templateElement) (bares {} level (pieces.map .templateElement)) =
      pieces := by
  induction pieces with
  | nil => rfl
  | cons piece pieces ih => exact congrArg (piece :: ·) ih

theorem zipWith_names (substitutions : List Substitution) :
    List.zipWith (placed .item) (nameNodes substitutions) (bares {} level (nameNodes substitutions)) =
      substitutions.map Substitution.name := by
  induction substitutions with
  | nil => rfl
  | cons substitution substitutions ih => exact congrArg (substitution.name :: ·) ih

/-- The pieces of a template are printed as they stand in its text, with the names between them. -/
theorem toList_templateText (first : String) (substitutions : List Substitution) :
    (Printer.templateText (first :: substitutions.map Substitution.piece)
      (substitutions.map Substitution.name)).toList ++ ['\x60'] =
        first.toList ++ substitutionsText substitutions := by
  induction substitutions generalizing first with
  | nil => simp [Printer.templateText, substitutionsText]
  | cons substitution substitutions ih =>
    have hcons := substitutionsText_cons substitution substitutions []
    rw [List.append_nil, List.append_nil] at hcons
    rw [hcons, ← ih substitution.piece]
    simp [Printer.templateText]

theorem lineText_template (first : String) (substitutions : List Substitution) :
    (Node.expressionStatement (templateNode first substitutions)).lineText level =
      templateText first substitutions ++ [';'] := by
  have hbare : asStatement (.expressionStatement (templateNode first substitutions))
      (bare {} level (.expressionStatement (templateNode first substitutions))) =
        "\x60" ++ Printer.templateText
          (List.zipWith alone (pieceNodes first substitutions)
            (bares {} level (pieceNodes first substitutions)))
          (List.zipWith (placed .item) (nameNodes substitutions)
            (bares {} level (nameNodes substitutions))) ++ "\x60" ++ ";" := rfl
  rw [Node.lineText, hbare, pieceNodes, zipWith_pieces, zipWith_names, templateText,
    ← toList_templateText]
  simp

/-- A template is printed as it is written. -/
theorem toSource_template (first : String) (substitutions : List Substitution) :
    (Node.program [.expressionStatement (templateNode first substitutions)]).toSource.toList =
      templateText first substitutions ++ [';', '\n'] := by
  have hne : ∀ node ∈ [Node.expressionStatement (templateNode first substitutions)],
      node.lineText 0 ≠ [] := by
    refine List.forall_mem_singleton.mpr ?_
    rw [lineText_template]
    exact List.append_ne_nil_of_right_ne_nil _ (List.cons_ne_nil _ _)
  -- a line that is not empty is printed as it is, with a line feed behind it
  rw [toList_toSource_of_ne_nil hne, programLines_cons, lineText_template, List.append_assoc]
  rfl

end Printing

/-! ### Programs -/

section Programs

variable {first : String} {substitutions : List Substitution} {options : ParserOptions}

/-- A template as a text. -/
def templateSource (first : String) (substitutions : List Substitution) : String :=
  String.ofList (templateText first substitutions)

/-- With room for the constructs around a substitution, a template is read if and only if none of its
names is misread. -/
theorem ofSourceWith_template (hfirst : isTemplatePiece first.toList = true)
    (hp : ∀ substitution ∈ substitutions, substitution.IsPlain) (hd : 3 ≤ options.maxDepth) :
    Node.ofSourceWith options (templateSource first substitutions) =
        .ok (.program [.expressionStatement (templateNode first substitutions)]) ↔
      ∀ substitution ∈ substitutions, substitution.IsSteady := by
  let start : Parser := (Parser.started (templateSource first substitutions) options).inStatement
  obtain ⟨room, hroom⟩ : ∃ room, options.maxDepth = room + 2 + 1 := ⟨options.maxDepth - 3, by omega⟩
  have htext : (templateSource first substitutions).toList = templateText first substitutions :=
    String.toList_ofList
  have hface : start.lexer.Facing .default false (templateText first substitutions) :=
    Parser.facing_inStatement htext options
  have hdepth : start.context.length + 1 < start.options.maxDepth := by
    change 1 + 1 < options.maxDepth
    omega
  have hbudget : substitutions.length < start.budget := by
    have hlength : start.budget = 2 * (templateSource first substitutions).toList.length + 4 := rfl
    have hcount := length_le_substitutionsText substitutions
    rw [hlength, htext, templateText, List.length_cons, List.length_append]
    omega
  obtain ⟨word, hw, -⟩ := (shows_backtick hface).token
  constructor
  · intro hparse
    by_contra hs
    simp only [not_forall] at hs
    obtain ⟨substitution, hin, hno⟩ := hs
    have hfails := fails_templateStatement hfirst hp ⟨substitution, hin, hno⟩ hface room
      (Nat.zero_lt_of_lt hbudget) hdepth
    exact ofSourceWith_ne_of_fails hroom hw hfails _ hparse
  · intro hs
    obtain ⟨afterOperand, hread⟩ := leadsTo_templateStatement hfirst hp hs hface room hbudget hdepth
    exact ofSourceWith_of_oneStatement hroom hw hread

/-- A template of any pieces of text, with names in its substitutions, is read as those pieces and those
names if and only if none of the names is misread; and that tree is printed as the text it was read
from. -/
theorem ofSourceWith_templateSource_iff (hfirst : isTemplatePiece first.toList = true)
    (hp : ∀ substitution ∈ substitutions, substitution.IsPlain) (hd : 3 ≤ options.maxDepth) :
    (Node.ofSourceWith options (templateSource first substitutions) =
        .ok (.program [.expressionStatement (templateNode first substitutions)]) ↔
      ∀ substitution ∈ substitutions, substitution.IsSteady) ∧
    (Node.program [.expressionStatement (templateNode first substitutions)]).toSource =
      templateSource first substitutions ++ ";\n" := by
  refine ⟨ofSourceWith_template hfirst hp hd, String.toList_injective ?_⟩
  rw [toSource_template, String.toList_append, templateSource, String.toList_ofList]
  rfl

/-- A template with escapes, quotes, braces and a line feed in it comes back as it is written; one with
a misread name is not read. -/
theorem ofSourceWith_templateSource_escapes :
    Node.ofSource "\x60\\\x60$\x7ba\x7d$\n\x7b\x22\x7d$\x7bb\x7d\x60" =
        .ok (.program [.expressionStatement (.templateLiteral
          [.templateElement "\\\x60", .templateElement "$\n\x7b\x22\x7d", .templateElement ""]
          [.identifier "a", .identifier "b"])]) ∧
      Node.ofSource "\x60$\x7basync\u200cfunction\x7d\x60" ≠ .ok (.program [.expressionStatement
        (.templateLiteral [.templateElement "", .templateElement ""]
          [.identifier "async\u200cfunction"])]) := by
  have hlimit : 3 ≤ ({} : ParserOptions).maxDepth := by decide
  constructor
  · let substitutions : List Substitution := [⟨"a", "$\n\x7b\x22\x7d"⟩, ⟨"b", ""⟩]
    have hfacts : ∀ substitution ∈ substitutions, IsPlainName substitution.name.toList ∧
        substitution.name.toList.any isSpace = false ∧
          isTemplatePiece substitution.piece.toList = true := by
      decide
    have hp : ∀ substitution ∈ substitutions, substitution.IsPlain :=
      fun substitution hin => ⟨(hfacts substitution hin).1, (hfacts substitution hin).2.2⟩
    have hs : ∀ substitution ∈ substitutions, substitution.IsSteady :=
      fun substitution hin => (hfacts substitution hin).1.steady_of_any (hfacts substitution hin).2.1
    have hfirst : isTemplatePiece "\\\x60".toList = true := by decide
    exact (ofSourceWith_templateSource_iff hfirst hp hlimit).1.mpr hs
  · obtain ⟨hplain, hno⟩ := misread_asyncFunction
    have hp : ∀ substitution ∈ [Substitution.mk "async\u200cfunction" ""], substitution.IsPlain :=
      List.forall_mem_singleton.mpr ⟨hplain, rfl⟩
    have hfirst : isTemplatePiece "".toList = true := rfl
    intro hparse
    exact hno ((ofSourceWith_templateSource_iff hfirst hp hlimit).1.mp hparse _ List.mem_cons_self)

end Programs

end ScriptTree
