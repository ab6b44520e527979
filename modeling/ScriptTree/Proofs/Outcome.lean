import ScriptTree.Proofs.OperandStack

/-!
What steps give if they succeed, from whatever state they are taken.
-/

namespace ScriptTree

namespace ParserM

variable {α β : Type}

/-- What a step gives, if it succeeds, has a property. -/
def Yields (m : ParserM α) (P : α → Prop) : Prop :=
  ∀ parser after a, m parser = .ok a after → P a

theorem yields_pure {P : α → Prop} {a : α} (h : P a) : Yields (pure a) P := by
  intro parser after b hb
  cases hb
  exact h

theorem yields_reject (P : α → Prop) (error : Parser → SyntaxError) : Yields (reject error) P := by
  intro parser after b hb
  cases hb

theorem yields_throw (P : α → Prop) (failure : Failure) :
    Yields (throw failure : ParserM α) P := by
  intro parser after b hb
  cases hb

theorem Yields.mono {m : ParserM α} {P Q : α → Prop} (h : Yields m P) (hpq : ∀ a, P a → Q a) :
    Yields m Q :=
  fun parser after a hm => hpq a (h parser after a hm)

theorem Yields.bind {m : ParserM α} {f : α → ParserM β} {Q : α → Prop} {P : β → Prop}
    (hm : Yields m Q) (h : ∀ a, Q a → Yields (f a) P) : Yields (m >>= f) P := by
  intro parser after b hb
  obtain ⟨a, between, ha, hf⟩ := ok_of_bind_ok hb
  exact h a (hm parser between a ha) between after b hf

theorem yields_bind {m : ParserM α} {f : α → ParserM β} {P : β → Prop} (h : ∀ a, Yields (f a) P) :
    Yields (m >>= f) P :=
  Yields.bind (fun _ _ _ _ => trivial) fun a (_ : True) => h a

theorem yields_ite {c : Prop} [Decidable c] {m m' : ParserM α} {P : α → Prop} (h : Yields m P)
    (h' : Yields m' P) : Yields (if c then m else m') P := by
  split
  · exact h
  · exact h'

theorem ok_of_within_ok {frame : Frame} {m : ParserM α} {parser after : Parser} {a : α}
    (h : within frame m parser = .ok a after) :
    ∃ between, m { parser with context := frame :: parser.context } = .ok a between := by
  by_cases hd : parser.options.maxDepth ≤ parser.context.length
  · rw [run_within_full hd] at h
    cases h
  · rw [run_within (Nat.not_le.mp hd)] at h
    cases hs : m { parser with context := frame :: parser.context } with
    | ok b between =>
      simp only [hs] at h
      cases h
      exact ⟨between, rfl⟩
    | error failure between => simp only [hs, reduceCtorEq] at h

theorem Yields.within {m : ParserM α} {P : α → Prop} (h : Yields m P) (frame : Frame) :
    Yields (within frame m) P := by
  intro parser after a hm
  obtain ⟨between, hs⟩ := ok_of_within_ok hm
  exact h _ between a hs

/-- The items of a list have what each of them has. -/
theorem Yields.commaList {item : ParserM α} {P : α → Prop} (h : Yields item P)
    (close : TokenKind) (rounds : Nat) :
    Yields (commaList close item rounds) fun items => ∀ a ∈ items, P a := by
  induction rounds with
  | zero => exact yields_throw _ _
  | succ rounds ih =>
    refine yields_bind fun atEnd => yields_ite (yields_pure nofun) ?_
    refine h.bind fun first hfirst => yields_bind fun found => yields_ite ?_ ?_
    · refine ih.bind fun others hothers => yields_pure ?_
      exact List.forall_mem_cons.mpr ⟨hfirst, hothers⟩
    · exact yields_pure (List.forall_mem_singleton.mpr hfirst)

theorem Yields.manyWhile {item : ParserM α} {P : α → Prop} (h : Yields item P)
    (goesOn : Option Token → Bool) (rounds : Nat) :
    Yields (manyWhile goesOn item rounds) fun items => ∀ a ∈ items, P a := by
  induction rounds with
  | zero => exact yields_throw _ _
  | succ rounds ih =>
    refine yields_bind fun word => yields_ite ?_ (yields_pure nofun)
    refine h.bind fun first hfirst => ih.bind fun others hothers => yields_pure ?_
    exact List.forall_mem_cons.mpr ⟨hfirst, hothers⟩

theorem Yields.closedList {item : ParserM α} {P : α → Prop} (h : Yields item P)
    (close : TokenKind) : Yields (closedList close item) fun items => ∀ a ∈ items, P a :=
  yields_bind fun rounds => (h.commaList close rounds).bind fun _ hitems =>
    yields_bind fun _ => yields_pure hitems

end ParserM

end ScriptTree
