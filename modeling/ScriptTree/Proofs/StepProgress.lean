import ScriptTree.Proofs.Progress

/-!
Steps of a parse by what they do to the text that is left.

A step goes back behind no token, or passes over the current one, or ends further on than it started.
Each class is closed under putting steps together. None of the steps runs out of steps: a loop has
more rounds than there are characters left, and each round uses up some of them.
-/

namespace ScriptTree

namespace ParserM

variable {α β : Type}

/-- A state in which a parse can go on: the stream is faithful to its text, the budget is large
enough for any loop over the text, and there is room for all the constructs that may still be
entered. -/
structure Ready (room : Nat) (parser : Parser) : Prop where
  faithful : parser.lexer.Faithful
  budget : 2 * parser.lexer.source.length + 4 ≤ parser.budget
  room : parser.options.maxDepth ≤ parser.context.length + room

/-- What a step comes to that does not run out of steps: in the end less than a bound is left. -/
def EndsWell (parser : Parser) (bound : Nat) : EStateM.Result Failure Parser α → Prop
  | .ok _ after => SameSetting parser after ∧ after.lexer.Faithful ∧ after.lexer.left < bound
  | .error failure _ => failure ≠ .outOfSteps

/-- A step that goes back behind no token. -/
def Steady (room : Nat) (m : ParserM α) : Prop :=
  ∀ parser, Ready room parser → EndsWell parser (parser.lexer.left + 1) (m parser)

/-- A step that ends behind the cursor, and so behind the current token if there is one. -/
def Passes (room : Nat) (m : ParserM α) : Prop :=
  ∀ parser, Ready room parser → EndsWell parser (parser.lexer.cursor.rest.length + 1) (m parser)

/-- A step that ends behind the current token, if there is one. -/
def MovesOn (room : Nat) (m : ParserM α) : Prop :=
  ∀ parser word, Ready room parser → parser.lexer.current = some word →
    EndsWell parser parser.lexer.left (m parser)

/-- A step that ends further on than it started, whether or not there is a current token. -/
def Advances (room : Nat) (m : ParserM α) : Prop :=
  ∀ parser, Ready room parser → EndsWell parser parser.lexer.left (m parser)

/-- A step that looks at the state and does not change it. -/
def Looks (m : ParserM α) : Prop :=
  ∀ parser, (∃ a, m parser = .ok a parser) ∨ ∃ error, m parser = .error (.rejected error) parser

section Ready

variable {room : Nat} {parser : Parser}

theorem Ready.of_sameSetting {after : Parser} (h : Ready room parser)
    (hs : SameSetting parser after) (hf : after.lexer.Faithful) : Ready room after where
  faithful := hf
  budget := by
    rw [hs.source, hs.budget]
    exact h.budget
  room := by
    rw [hs.options, hs.context]
    exact h.room

theorem Ready.left_lt_budget (h : Ready room parser) :
    2 * parser.lexer.left + 4 ≤ parser.budget := by
  have hl := h.faithful.left_le_length
  have hb := h.budget
  omega

theorem Ready.enter (h : Ready room parser) (frame : Frame) :
    Ready room { parser with context := frame :: parser.context } where
  faithful := h.faithful
  budget := h.budget
  room := by
    have hr := h.room
    simp only [List.length_cons]
    omega

theorem EndsWell.mono {bound bound' : Nat} {result : EStateM.Result Failure Parser α}
    (h : EndsWell parser bound result) (hb : bound ≤ bound') : EndsWell parser bound' result := by
  cases result with
  | ok a after => exact ⟨h.1, h.2.1, Nat.lt_of_lt_of_le h.2.2 hb⟩
  | error failure after => exact h

/-- An error ends a parse, but not for want of steps. -/
theorem endsWell_rejected {bound : Nat} (error : SyntaxError) (after : Parser) :
    EndsWell parser bound (.error (.rejected error) after : EStateM.Result Failure Parser α) := by
  intro h
  cases h

/-- A step behind another one starts where that one has ended. -/
theorem EndsWell.bind {bound bound' : Nat} {m : ParserM α} {f : α → ParserM β}
    (hr : Ready room parser) (h : EndsWell parser bound (m parser))
    (hf : ∀ a between, m parser = .ok a between → Ready room between →
      between.lexer.left < bound → EndsWell between bound' (f a between)) :
    EndsWell parser bound' ((m >>= f) parser) := by
  rw [run_bind]
  cases hm : m parser with
  | error failure between =>
    rw [hm] at h
    exact h
  | ok a between =>
    rw [hm] at h
    obtain ⟨hs, hfaith, hl⟩ := h
    have hnext := hf a between hm (hr.of_sameSetting hs hfaith) hl
    dsimp only
    cases hg : f a between with
    | error failure after =>
      rw [hg] at hnext
      exact hnext
    | ok b after =>
      rw [hg] at hnext
      exact ⟨sameSetting_lasting.trans hs hnext.1, hnext.2⟩

theorem EndsWell.refl (h : Ready room parser) (a : α) :
    EndsWell parser (parser.lexer.left + 1) (.ok a parser) :=
  ⟨sameSetting_lasting.refl parser, h.faithful, Nat.lt_succ_self _⟩

end Ready

section Combining

variable {room : Nat} {m : ParserM α} {f : α → ParserM β}

theorem Advances.steady (h : Advances room m) : Steady room m :=
  fun parser hr => (h parser hr).mono (Nat.le_succ _)

theorem Passes.steady (h : Passes room m) : Steady room m := by
  intro parser hr
  refine (h parser hr).mono ?_
  have hc := hr.faithful.cursor_le_left
  omega

theorem Passes.movesOn (h : Passes room m) : MovesOn room m := by
  intro parser word hr hw
  refine (h parser hr).mono ?_
  have hc := hr.faithful.cursor_lt_left hw
  omega

theorem Advances.movesOn (h : Advances room m) : MovesOn room m := fun parser _ hr _ => h parser hr

theorem Steady.bind (hm : Steady room m) (hf : ∀ a, Steady room (f a)) :
    Steady room (m >>= f) := by
  intro parser hr
  refine (hm parser hr).bind hr fun a between _ hr' hl => (hf a between hr').mono ?_
  omega

theorem Passes.bind (hm : Passes room m) (hf : ∀ a, Steady room (f a)) :
    Passes room (m >>= f) := by
  intro parser hr
  refine (hm parser hr).bind hr fun a between _ hr' hl => (hf a between hr').mono ?_
  omega

theorem Advances.bind (hm : Advances room m) (hf : ∀ a, Steady room (f a)) :
    Advances room (m >>= f) := by
  intro parser hr
  refine (hm parser hr).bind hr fun a between _ hr' hl => (hf a between hr').mono ?_
  omega

theorem Steady.advances (hm : Steady room m) (hf : ∀ a, Advances room (f a)) :
    Advances room (m >>= f) := by
  intro parser hr
  refine (hm parser hr).bind hr fun a between _ hr' hl => (hf a between hr').mono ?_
  omega

theorem Looks.steady (h : Looks m) : Steady room m := by
  intro parser hr
  rcases h parser with ⟨a, hm⟩ | ⟨error, hm⟩
  · rw [hm]
    exact .refl hr a
  · rw [hm]
    exact endsWell_rejected _ _

theorem Looks.passes (h : Looks m) (hf : ∀ a, Passes room (f a)) : Passes room (m >>= f) := by
  intro parser hr
  rw [run_bind]
  rcases h parser with ⟨a, hm⟩ | ⟨error, hm⟩
  · rw [hm]
    exact hf a parser hr
  · rw [hm]
    exact endsWell_rejected _ _

theorem Looks.movesOn (h : Looks m) (hf : ∀ a, MovesOn room (f a)) : MovesOn room (m >>= f) := by
  intro parser word hr hw
  rw [run_bind]
  rcases h parser with ⟨a, hm⟩ | ⟨error, hm⟩
  · rw [hm]
    exact hf a parser word hr hw
  · rw [hm]
    exact endsWell_rejected _ _

theorem looks_pure (a : α) : Looks (pure a) := fun _ => Or.inl ⟨a, rfl⟩

theorem looks_current : Looks current := fun parser => Or.inl ⟨parser.lexer.current, rfl⟩

theorem looks_get : Looks get := fun parser => Or.inl ⟨parser, rfl⟩

theorem looks_reject (error : Parser → SyntaxError) : Looks (reject error : ParserM α) :=
  fun parser => Or.inr ⟨error parser, rfl⟩

theorem Looks.bind (h : Looks m) (hf : ∀ a, Looks (f a)) : Looks (m >>= f) := by
  intro parser
  rw [run_bind]
  rcases h parser with ⟨a, hm⟩ | ⟨error, hm⟩
  · rw [hm]
    exact hf a parser
  · rw [hm]
    exact Or.inr ⟨error, rfl⟩

theorem looks_isAt (kind : TokenKind) : Looks (isAt kind) :=
  looks_current.bind fun _ => looks_pure _

theorem looks_isAtText (kind : TokenKind) (text : String) : Looks (isAtText kind text) :=
  looks_current.bind fun _ => looks_pure _

theorem looks_token : Looks token := by
  refine looks_current.bind fun word => ?_
  cases word with
  | some word => exact looks_pure word
  | none => exact looks_reject _

theorem steady_pure (a : α) : Steady room (pure a) := (looks_pure a).steady

theorem steady_reject (error : Parser → SyntaxError) : Steady room (reject error : ParserM α) :=
  (looks_reject error).steady

theorem passes_reject (error : Parser → SyntaxError) : Passes room (reject error : ParserM α) :=
  fun _ _ => endsWell_rejected _ _

theorem advances_reject (error : Parser → SyntaxError) : Advances room (reject error : ParserM α) :=
  fun _ _ => endsWell_rejected _ _

/-- Behind a look at the current token, which must be there, passing it is an advance. -/
theorem advances_at_token {f : Token → ParserM β} (hf : ∀ word parser, Ready room parser →
      parser.lexer.current = some word → EndsWell parser parser.lexer.left (f word parser)) :
    Advances room (token >>= f) := by
  intro parser hr
  rw [run_bind]
  cases hw : parser.lexer.current with
  | none =>
    have ht : token parser = .error (.rejected parser.unexpected) parser := by
      simp only [token, run_bind, run_current, hw, run_reject]
    rw [ht]
    exact endsWell_rejected _ _
  | some word =>
    rw [run_token hw]
    exact hf word parser hr hw

theorem advances_token {f : Token → ParserM β} (hf : ∀ word, MovesOn room (f word)) :
    Advances room (token >>= f) :=
  advances_at_token fun word parser hr hw => hf word parser word hr hw

end Combining

section Steps

variable {room : Nat}

theorem passes_next (mode : LexerMode) :
    Passes room (modifyLexer fun lexer => lexer.next mode) := by
  intro parser hr
  refine ⟨sameSetting_lasting.next parser mode, hr.faithful.next mode, ?_⟩
  have hl := parser.lexer.next_left_le mode
  exact Nat.lt_succ_of_le hl

theorem passes_nextToken : Passes room nextToken := passes_next .default

theorem passes_nextTokenIn (mode : LexerMode) : Passes room (nextTokenIn mode) :=
  (passes_next mode).bind fun _ => looks_current.steady

theorem steady_reread (mode : LexerMode) : Steady room (reread mode) := by
  refine Steady.bind (fun parser hr => ?_) fun _ => looks_current.steady
  refine ⟨sameSetting_lasting.reread parser mode, hr.faithful.reread mode, ?_⟩
  exact Nat.lt_succ_of_le (hr.faithful.reread_left_le mode)

/-- A token is stepped over if it passes a test, which no absent token does. -/
theorem advances_of_any {test : Token → Bool} {parser : Parser} (hr : Ready room parser)
    (h : parser.lexer.current.any test = true) :
    EndsWell parser parser.lexer.left (nextToken parser) := by
  cases hw : parser.lexer.current with
  | none => simp [hw] at h
  | some word => exact passes_nextToken.movesOn parser word hr hw

theorem advances_require (kind : TokenKind) : Advances room (require kind) := by
  intro parser hr
  rw [require, run_bind, run_isAt]
  dsimp only
  split
  · rename_i h
    exact advances_of_any hr h
  · exact endsWell_rejected _ _

theorem advances_requireText (kind : TokenKind) (text : String) :
    Advances room (requireText kind text) := by
  intro parser hr
  rw [requireText, run_bind, run_isAtText]
  dsimp only
  split
  · rename_i h
    exact advances_of_any hr h
  · exact endsWell_rejected _ _

theorem steady_accept (kind : TokenKind) : Steady room (accept kind) := by
  refine (looks_isAt kind).steady.bind fun _ => ?_
  split
  · exact passes_nextToken.steady.bind fun _ => steady_pure true
  · exact steady_pure false

theorem steady_acceptText (kind : TokenKind) (text : String) :
    Steady room (acceptText kind text) := by
  refine (looks_isAtText kind text).steady.bind fun _ => ?_
  split
  · exact passes_nextToken.steady.bind fun _ => steady_pure true
  · exact steady_pure false

/-- What is accepted is passed over. -/
theorem left_lt_of_accept {kind : TokenKind} {parser after : Parser} (hr : Ready room parser)
    (h : accept kind parser = .ok true after) : after.lexer.left < parser.lexer.left := by
  rw [accept, run_bind, run_isAt] at h
  dsimp only at h
  split at h
  · rename_i hat
    have hn := advances_of_any hr hat
    obtain ⟨_, between, hm, hp⟩ := ok_of_bind_ok h
    rw [hm] at hn
    cases hp
    exact hn.2.2
  · cases h

theorem steady_tryModifier (sameLine : Bool) : Steady room (tryModifier sameLine) := by
  intro parser hr
  rw [run_tryModifier]
  split
  · have hn := passes_nextToken.steady parser hr
    exact hn
  · rw [Lexer.next_returnTo_bookmark]
    refine ⟨sameSetting_lasting.reread parser .names, hr.faithful.reread .names, ?_⟩
    exact Nat.lt_succ_of_le (hr.faithful.reread_left_le .names)

/-- A name is found when it is read again, and then passed over. -/
theorem advances_name : Advances room name := by
  refine advances_at_token fun word parser hr hw => ?_
  split
  · rename_i hn
    obtain ⟨again, hagain⟩ := hr.faithful.reread_names hw hn
    refine EndsWell.bind hr (steady_reread .names parser hr) fun found between hm hr' hl => ?_
    have hc : between.lexer.current = some again := by
      have hb : between = { parser with lexer := parser.lexer.reread .names } := by
        cases hm
        rfl
      rw [hb]
      exact hagain
    have hstep := passes_nextToken.movesOn between again hr' hc
    refine EndsWell.bind hr' hstep fun _ after _ hr'' hl' => ?_
    refine (EndsWell.refl hr'' _).mono ?_
    omega
  · exact endsWell_rejected _ _

theorem EndsWell.within {frame : Frame} {m : ParserM α} {parser : Parser} {bound : Nat}
    (h : parser.context.length < parser.options.maxDepth →
      EndsWell { parser with context := frame :: parser.context } bound
        (m { parser with context := frame :: parser.context })) :
    EndsWell parser bound (within frame m parser) := by
  by_cases hd : parser.options.maxDepth ≤ parser.context.length
  · rw [run_within_full hd]
    exact endsWell_rejected _ _
  · have hm := h (Nat.not_le.mp hd)
    rw [run_within (Nat.not_le.mp hd)]
    cases hr : m { parser with context := frame :: parser.context } with
    | error failure after =>
      rw [hr] at hm
      exact hm
    | ok a after =>
      rw [hr] at hm
      exact ⟨sameSetting_lasting.leave hm.1, hm.2⟩

theorem advances_within (frame : Frame) {m : ParserM α} (h : Advances room m) :
    Advances room (within frame m) :=
  fun _ hr => .within fun _ => h _ (hr.enter frame)

theorem steady_within (frame : Frame) {m : ParserM α} (h : Steady room m) :
    Steady room (within frame m) :=
  fun _ hr => .within fun _ => h _ (hr.enter frame)

end Steps

section Loops

variable {room : Nat} {item : ParserM α}

/-- A list with commas uses up a round for each item, and each item some of the text. -/
theorem endsWell_commaList (close : TokenKind) (h : Advances room item) (rounds : Nat)
    {parser : Parser} (hr : Ready room parser) (hl : parser.lexer.left < rounds) :
    EndsWell parser (parser.lexer.left + 1) (commaList close item rounds parser) := by
  induction rounds generalizing parser with
  | zero => exact absurd hl (Nat.not_lt_zero _)
  | succ rounds ih =>
    rw [commaList, run_bind, run_isAt]
    dsimp only
    split
    · exact .refl hr []
    · refine EndsWell.bind hr (h parser hr) fun first between _ hr₁ hl₁ => ?_
      refine EndsWell.bind hr₁ (steady_accept .comma between hr₁) fun found behind _ hr₂ hl₂ => ?_
      split
      · refine EndsWell.bind hr₂ (ih hr₂ (by omega)) fun others after _ hr₃ hl₃ => ?_
        exact (EndsWell.refl hr₃ _).mono (by omega)
      · exact (EndsWell.refl hr₂ _).mono (by omega)

theorem endsWell_manyWhile (goesOn : Option Token → Bool) (h : Advances room item) (rounds : Nat)
    {parser : Parser} (hr : Ready room parser) (hl : parser.lexer.left < rounds) :
    EndsWell parser (parser.lexer.left + 1) (manyWhile goesOn item rounds parser) := by
  induction rounds generalizing parser with
  | zero => exact absurd hl (Nat.not_lt_zero _)
  | succ rounds ih =>
    rw [manyWhile, run_bind, run_current]
    dsimp only
    split
    · refine EndsWell.bind hr (h parser hr) fun first between _ hr₁ hl₁ => ?_
      refine EndsWell.bind hr₁ (ih hr₁ (by omega)) fun others after _ hr₂ hl₂ => ?_
      exact (EndsWell.refl hr₂ _).mono (by omega)
    · exact .refl hr []

/-- A loop that gets along with more rounds than characters are left gets along with the budget. -/
theorem steady_of_rounds {loop : Nat → ParserM α}
    (h : ∀ {rounds parser}, Ready room parser → parser.lexer.left < rounds →
      EndsWell parser (parser.lexer.left + 1) (loop rounds parser)) :
    Steady room (budget >>= loop) := by
  intro parser hr
  rw [run_bind, run_budget]
  have hb := hr.left_lt_budget
  exact h hr (by omega)

theorem steady_commaList (close : TokenKind) (h : Advances room item) :
    Steady room (budget >>= commaList close item) :=
  steady_of_rounds fun hr hl => endsWell_commaList close h _ hr hl

theorem steady_manyWhile (goesOn : Option Token → Bool) (h : Advances room item) :
    Steady room (budget >>= manyWhile goesOn item) :=
  steady_of_rounds fun hr hl => endsWell_manyWhile goesOn h _ hr hl

/-- A list in a closed construct ends with its closing token. -/
theorem advances_closedList (close : TokenKind) (h : Advances room item) :
    Advances room (closedList close item) := by
  have he : closedList close item =
      (budget >>= commaList close item) >>= fun items => require close >>= fun _ => pure items := by
    rw [closedList, bind_assoc]
  rw [he]
  refine (steady_commaList close h).advances fun items => ?_
  exact (advances_require close).bind fun _ => steady_pure items

end Loops

end ParserM

end ScriptTree
