import ScriptTree.Proofs.SideBySide

/-!
The limit on constructs inside each other decides nothing but whether a parse fails for it.

A parse under a higher limit goes side by side with one under a lower limit. No rule looks at the
limit except on entering a construct; the room for goals inside each other follows from the limit,
and more of it does no harm.
-/

namespace ScriptTree

namespace ParserM

/-- The same state under a limit that is no lower, whatever has been reported. -/
def Deeper (parser parser' : Parser) : Prop :=
  ∃ depth diagnostics, parser.options.maxDepth ≤ depth ∧
    parser' = { parser with options := { parser.options with maxDepth := depth }, diagnostics }

/-- A failure for the limit on constructs, or for want of steps. -/
def ForDepth (failure : Failure) : Prop :=
  failure = .outOfSteps ∨ ∃ error, failure = .rejected error ∧ error.code = 1202

theorem sideBySide_of_deeper {parser parser' : Parser} (h : Deeper parser parser') :
    SideBySide parser parser' := by
  obtain ⟨depth, diagnostics, hd, rfl⟩ := h
  refine ⟨rfl, rfl, rfl, rfl, hd, le_rfl, rfl, ?_⟩
  cases hc : parser.lexer.current with
  | none => exact .inl ⟨rfl, rfl⟩
  | some word => exact .inr ⟨word, word.start, word.stop, rfl, rfl⟩

/-- The states agree in all that rules look at, so whatever is done in both keeps them so. -/
theorem deeper_simulation : Simulation Deeper ForDepth (fun _ _ => True) where
  beside := sideBySide_of_deeper
  outOfSteps := .inl rfl
  errors := by
    rintro parser _ ⟨depth, diagnostics, hd, rfl⟩
    exact .inr rfl
  full _ := .inl fun _ _ _ => .inr ⟨_, rfl, rfl⟩
  buffers := by
    rintro parser _ operands pendingParams diagnostics diagnostics' ⟨depth, _, hd, rfl⟩
    exact ⟨depth, diagnostics', hd, rfl⟩
  enter := by
    rintro parser _ frame ⟨depth, diagnostics, hd, rfl⟩
    exact ⟨depth, diagnostics, hd, rfl⟩
  leave := by
    rintro parser _ ⟨depth, diagnostics, hd, rfl⟩
    exact ⟨depth, diagnostics, hd, rfl⟩
  next := by
    rintro parser _ mode _ ⟨depth, diagnostics, hd, rfl⟩ _
    exact ⟨depth, diagnostics, hd, rfl⟩
  reread := by
    rintro parser _ mode _ ⟨depth, diagnostics, hd, rfl⟩ _
    exact ⟨depth, diagnostics, hd, rfl⟩

/-- Reading ahead for an arrow does not ask how many constructs there may be. -/
theorem arrowAhead_deeper :
    Simulated arrowAhead Deeper ForDepth (fun _ _ => True) arrowAhead arrowAhead where
  built := .asks
  agree := by
    rintro parser _ ⟨depth, diagnostics, hd, rfl⟩ _
    rw [run_arrowAhead, run_arrowAhead]
    dsimp only
    cases parser.lexer.current with
    | none => exact ⟨rfl, depth, diagnostics, hd, rfl⟩
    | some word =>
      cases hl : parser.arrowAnswers.lookup word.start with
      | some answer =>
        simp only [hl]
        exact ⟨rfl, depth, diagnostics, hd, rfl⟩
      | none =>
        simp only [hl]
        exact ⟨rfl, depth, diagnostics, hd, rfl⟩

end ParserM

namespace Parser

open ParserM

/-- A higher limit on constructs inside each other gives the same tree or, if the failure was not
for the limit, the same error. -/
theorem run_of_deeper (source : String) (options : ParserOptions) {depth : Nat}
    (h : options.maxDepth ≤ depth) :
    (∀ tree, (ofText source options).run.1 = .ok tree →
      (ofText source { options with maxDepth := depth }).run.1 = .ok tree) ∧
    ∀ error, (ofText source options).run.1 = .error (.rejected error) → error.code ≠ 1202 →
      (ofText source { options with maxDepth := depth }).run.1 = .error (.rejected error) := by
  have hd : Deeper (ofText source options) (ofText source { options with maxDepth := depth }) :=
    ⟨depth, .empty, h, rfl⟩
  have hagree := (Simulation.program deeper_simulation arrowAhead_deeper).agree hd fun _ => trivial
  have hsame := hagree.same
  rw [← run_fst, ← run_fst] at hsame
  rcases hsame with hsame | ⟨failure, hfailure, hlost⟩
  · rw [hsame]
    exact ⟨fun tree he => he, fun error he _ => he⟩
  · refine ⟨fun tree he => ?_, fun error he hc => ?_⟩
    · rw [hfailure] at he
      cases he
    -- the first parse has failed with an error, and by its code not for the limit
    · rw [hfailure] at he
      obtain rfl := Except.error.inj he
      rcases hlost with hs | ⟨error', he', hc'⟩
      · cases hs
      · cases he'
        exact absurd hc' hc

/-- Two constructs are enough for a name, so the default limit gives the same tree; a missing operand
is found under a limit of three as under the default. -/
theorem run_of_deeper_name :
    (ofText "a" { maxDepth := 2 }).run.1.isOk = true ∧
    (∃ tree, (ofText "a" { maxDepth := 2 }).run.1 = .ok tree ∧ (ofText "a" {}).run.1 = .ok tree) ∧
    ∃ error, (ofText "!" { maxDepth := 3 }).run.1 = .error (.rejected error) ∧ error.code = 1101 ∧
      (ofText "!" {}).run.1 = .error (.rejected error) := by
  have hname : (ofText "a" { maxDepth := 2 }).run.1.isOk = true := by decide
  refine ⟨hname, ?_, ?_⟩
  · have hdeeper := run_of_deeper "a" { maxDepth := 2 } (by decide : 2 ≤ 200)
    cases hr : (ofText "a" { maxDepth := 2 }).run.1 with
    | ok tree => exact ⟨tree, rfl, hdeeper.1 tree hr⟩
    | error failure =>
      rw [hr] at hname
      cases hname
  · have hdeeper := run_of_deeper "!" { maxDepth := 3 } (by decide : 3 ≤ 200)
    have hr : (ofText "!" { maxDepth := 3 }).run.1 = .error (.rejected (.unexpectedEnd 1 ⟨1, 2⟩)) := by
      rfl
    exact ⟨_, hr, rfl, hdeeper.2 _ hr (by decide)⟩

end Parser

end ScriptTree
