import Mathlib.Data.List.Infix
import ScriptTree.Proofs.Coverage
import ScriptTree.Proofs.Names
import ScriptTree.Proofs.StepRun

/-!
Texts without arrows. Where no arrow stands in what is left of the text, reading ahead from a
parenthesis finds none.
-/

namespace ScriptTree

/-- A text in which no arrow stands. -/
def ArrowFree (text : List Char) : Prop := ∀ before behind, text ≠ before ++ '=' :: '>' :: behind

theorem ArrowFree.of_append {before text : List Char} (h : ArrowFree (before ++ text)) :
    ArrowFree text := by
  intro earlier behind he
  exact h (before ++ earlier) behind (by rw [he, List.append_assoc])

theorem ArrowFree.of_suffix {text rest : List Char} (h : ArrowFree text) (hs : rest <:+ text) :
    ArrowFree rest := by
  obtain ⟨before, rfl⟩ := hs
  exact h.of_append

/-- An arrow in two texts one after the other stands in one of them, or across them. -/
theorem ArrowFree.append {text rest : List Char} (h : ArrowFree text) (hr : ArrowFree rest)
    (hc : text.getLast? ≠ some '=' ∨ rest.head? ≠ some '>') : ArrowFree (text ++ rest) := by
  intro before behind he
  -- where the texts meet: before the arrow, inside it, or behind it
  rcases List.append_eq_append_iff.mp he with ⟨middle, -, hm⟩ | ⟨middle, hm, hm'⟩
  · exact hr middle behind hm
  · match middle with
    | [] => exact hr [] behind (by simpa using hm'.symm)
    | [c] =>
      simp only [List.cons_append, List.nil_append, List.cons.injEq] at hm'
      rcases hc with hc | hc
      · exact hc (by rw [hm, ← hm'.1]; simp)
      · exact hc (by rw [← hm'.2]; rfl)
    | c :: d :: middle =>
      simp only [List.cons_append, List.cons.injEq] at hm'
      exact h before middle (by rw [hm, ← hm'.1, ← hm'.2.1])

theorem arrowFree_of_tails {text : List Char}
    (h : ∀ suffix ∈ text.tails, ['=', '>'].isPrefixOf suffix = false) : ArrowFree text := by
  rintro before behind rfl
  have hs := h ('=' :: '>' :: behind) ((List.mem_tails _ _).mpr (List.suffix_append _ _))
  simp [List.isPrefixOf] at hs

theorem arrowFree_of_not_mem {text : List Char} (h : '=' ∉ text) : ArrowFree text := by
  rintro before behind rfl
  simp at h

theorem ArrowFree.cons {c : Char} {text : List Char} (h : ArrowFree text) (hc : c ≠ '=') :
    ArrowFree (c :: text) := by
  have hone : ArrowFree [c] := arrowFree_of_not_mem (by simpa using hc.symm)
  exact hone.append h (Or.inl (by simpa using hc))

theorem ArrowFree.append_cons {c : Char} {text rest : List Char} (h : ArrowFree text)
    (hr : ArrowFree rest) (he : c ≠ '=') (hg : c ≠ '>') : ArrowFree (text ++ c :: rest) :=
  h.append (hr.cons he) (Or.inr (by simpa using hg))

theorem arrowFree_name {name : List Char} (h : IsName name) : ArrowFree name :=
  arrowFree_of_not_mem fun hm => absurd (h.part _ hm) (by decide)

theorem arrowFree_operator {operator : String}
    (h : operator ∈ Operator.binaries.map Prod.fst ++ Operator.assignments) :
    ArrowFree operator.toList := by
  have hall : ∀ operator ∈ Operator.binaries.map Prod.fst ++ Operator.assignments,
      ∀ suffix ∈ operator.toList.tails, ['=', '>'].isPrefixOf suffix = false := by
    decide
  exact arrowFree_of_tails (hall operator h)

theorem Lexer.next_arrowFree {lexer : Lexer} (h : ArrowFree lexer.cursor.rest) (mode : LexerMode) :
    ArrowFree (lexer.next mode).cursor.rest ∧
      ∀ token, (lexer.next mode).current = some token → token.kind ≠ .arrow := by
  have hlead := seek_leads mode lexer.afterOperand (lexer.cursor.rest.length + 1) lexer.cursor false
  have hskipped {stop : Cursor} (hskip : lexer.cursor.Skips stop) : ArrowFree stop.rest := by
    obtain ⟨gap, hgap, -⟩ := hskip.spans
    exact h.of_suffix ⟨gap, hgap.symm⟩
  unfold next
  cases hs : seek mode lexer.afterOperand (lexer.cursor.rest.length + 1) lexer.cursor false with
  | token start kind lexeme precedence newline =>
    rw [hs] at hlead
    obtain ⟨hskip, hat⟩ := hlead
    have hstart := hskipped hskip
    refine ⟨hstart.of_suffix (List.drop_suffix _ _), ?_⟩
    intro token ht hk
    cases ht
    -- an arrow is found only where one stands
    obtain ⟨rest, hrest⟩ := hat.of_arrow hk
    exact hstart [] rest hrest
  | stuck place =>
    rw [hs] at hlead
    exact ⟨hskipped hlead, nofun⟩
  | finished place =>
    rw [hs] at hlead
    exact ⟨hskipped hlead, nofun⟩

/-- Answers about parentheses, none of which is that an arrow follows. -/
def NoArrows (answers : List (Nat × Bool)) : Prop := ∀ entry ∈ answers, entry.2 = false

theorem mem_of_lookup {α β : Type} [BEq α] [LawfulBEq α] {entries : List (α × β)} {key : α} {value : β}
    (h : entries.lookup key = some value) : (key, value) ∈ entries := by
  obtain ⟨before, behind, he, -⟩ := List.lookup_eq_some_iff.mp h
  simp [he]

theorem NoArrows.lookup {answers : List (Nat × Bool)} (h : NoArrows answers) {offset : Nat}
    {answer : Bool} (hl : answers.lookup offset = some answer) : answer = false :=
  h (offset, answer) (mem_of_lookup hl)

theorem NoArrows.append {answers others : List (Nat × Bool)} (h : NoArrows answers)
    (h' : NoArrows others) : NoArrows (answers ++ others) := by
  intro entry he
  rcases List.mem_append.mp he with he | he
  · exact h entry he
  · exact h' entry he

theorem noArrows_map (offsets : List Nat) : NoArrows (offsets.map fun offset => (offset, false)) := by
  intro entry he
  obtain ⟨offset, -, rfl⟩ := List.mem_map.mp he
  rfl

namespace Lookahead

theorem decided_follow (ahead : Lookahead) (token : Token) :
    (ahead.follow token).decided = ahead.decided := by
  unfold follow
  split <;> (try split) <;> rfl

/-- Reading ahead in a text without arrows decides against every parenthesis. -/
theorem scan_noArrows {rounds : Nat} {ahead : Lookahead} {lexer : Lexer}
    (h : NoArrows ahead.decided) (hl : ArrowFree lexer.cursor.rest) :
    NoArrows (scan rounds ahead lexer).decided := by
  induction rounds generalizing ahead lexer with
  | zero => exact h
  | succ rounds ih =>
    obtain ⟨hn, hk⟩ := Lexer.next_arrowFree hl ahead.mode
    rw [scan]
    dsimp only
    split
    · exact h
    · rename_i token ht
      -- a parenthesis is decided by the token behind it, which is no arrow
      have hd : NoArrows (ahead.decideClosed token).decided := by
        have he : (token.kind == .arrow) = false := beq_eq_false_iff_ne.mpr (hk token ht)
        simp only [decideClosed, he]
        exact (noArrows_map _).append h
      split
      · exact hd
      · exact ih (by rw [decided_follow]; exact hd) hn

end Lookahead

/-- Where no arrow is left in the text, no parenthesis starts an arrow function. -/
theorem ParserM.run_arrowAhead_of_arrowFree {parser : Parser} (h : NoArrows parser.arrowAnswers)
    (hl : ArrowFree parser.lexer.cursor.rest) :
    ∃ answers, arrowAhead parser = .ok false { parser with arrowAnswers := answers } ∧
      NoArrows answers := by
  rw [run_arrowAhead]
  cases parser.lexer.current with
  | none => exact ⟨parser.arrowAnswers, rfl, h⟩
  | some word =>
    cases hw : parser.arrowAnswers.lookup word.start with
    | some answer =>
      refine ⟨parser.arrowAnswers, ?_, h⟩
      simp only [hw, h.lookup hw]
    | none =>
      -- nothing is known about this parenthesis: the text ahead is gone through once
      have hd : NoArrows (lookAhead parser word.start parser.arrowAnswers) :=
        (noArrows_map _).append (Lookahead.scan_noArrows h hl)
      refine ⟨lookAhead parser word.start parser.arrowAnswers, ?_, hd⟩
      simp only [hw]
      cases ha : (lookAhead parser word.start parser.arrowAnswers).lookup word.start with
      | none => rfl
      | some answer => rw [hd.lookup ha]; rfl

end ScriptTree
