import ScriptTree.Proofs.ArrowAnswers
import ScriptTree.Proofs.FollowedText
import ScriptTree.Proofs.SideBySide

/-!
A parse of a text, and that of the text with more behind it.

As long as the first one has not come to the end of its text, the second does the same, if no reading
sees what is behind the text. Where the first has come to the end in the middle of a construct with
brackets, it cannot succeed any more: what is left to read does not close the brackets.
-/

namespace ScriptTree

namespace Lookahead

/-- Text in which no parenthesis and no arrow stands. -/
structure Quiet (text : List Char) : Prop where
  openParen : '(' ∉ text
  closeParen : ')' ∉ text
  arrowFree : ArrowFree text

/-- Reading ahead does not see what is behind the text. -/
def Clear (tail : List Char) : Nat → Lookahead → Lexer → Prop
  | 0, _, _ => True
  | rounds + 1, ahead, lexer => lexer.Clear tail ahead.mode ∧
      ∀ token ∈ (lexer.next ahead.mode).current, (ahead.decideClosed token).openParens ≠ [] →
        Clear tail rounds ((ahead.decideClosed token).follow token) (lexer.next ahead.mode)

/-- A token that is no arrow decides nothing else than the end of the text would. -/
theorem lookup_decideClosed {ahead : Lookahead} {token : Token} (hk : token.kind ≠ .arrow)
    (offset : Nat) :
    (ahead.decideClosed token).answers.lookup offset = ahead.answers.lookup offset := by
  have hno : (token.kind == .arrow) = false := beq_eq_false_iff_ne.mpr hk
  rw [lookup_answers, lookup_answers]
  cases hc : ahead.closed with
  | none => simp [decideClosed, hc]
  | some paren =>
    by_cases hp : offset = paren
    · subst hp
      by_cases ho : offset ∈ ahead.openParens <;> simp [decideClosed, hc, hno, ho]
    · have hb : (offset == paren) = false := beq_eq_false_iff_ne.mpr hp
      simp [decideClosed, hc, hno, List.lookup_cons, hb, Ne.symm hp]

theorem lookup_follow {ahead : Lookahead} {token : Token} (hopen : token.kind ≠ .openParen)
    (hclose : token.kind ≠ .closeParen) (offset : Nat) :
    (ahead.follow token).answers.lookup offset = ahead.answers.lookup offset := by
  unfold follow
  split
  · rename_i hk
    exact absurd hk hopen
  · rename_i hk
    exact absurd hk hclose
  · rfl
  · split <;> rfl
  · rfl
  · split <;> rfl
  · rfl

theorem Quiet.of_suffix {text rest : List Char} (h : Quiet text) (hs : rest <:+ text) : Quiet rest :=
  ⟨fun hm => h.openParen (hs.subset hm), fun hm => h.closeParen (hs.subset hm),
    h.arrowFree.of_suffix hs⟩

theorem Quiet.token {lexer : Lexer} {mode : LexerMode} {token : Token}
    (h : Quiet lexer.cursor.rest) (ht : (lexer.next mode).current = some token) :
    token.kind ≠ .arrow ∧ token.kind ≠ .openParen ∧ token.kind ≠ .closeParen := by
  have hclose : ∀ rule ∈ Rule.table, rule.kind = .closeParen → rule.pattern = .punctuators [")"] := by
    decide
  have hat := Lexer.next_at ht
  have hsuffix := (lexer.next_isSuffix mode).2
  refine ⟨(Lexer.next_arrowFree h.arrowFree mode).2 token ht, fun hk => ?_, fun hk => ?_⟩
  · obtain ⟨-, rest, hrest⟩ := hat.of_openParen hk
    exact h.openParen (hsuffix.subset (by simp [hrest]))
  · obtain ⟨-, rest, hrest⟩ := hat.of_spelling hk nofun nofun hclose
    exact h.closeParen (hsuffix.subset (by simp [hrest]))

/-- Over text without parentheses and arrows, reading ahead decides nothing. -/
theorem lookup_scan_quiet {rounds : Nat} {ahead : Lookahead} {lexer : Lexer}
    (h : Quiet lexer.cursor.rest) (offset : Nat) :
    (scan rounds ahead lexer).answers.lookup offset = ahead.answers.lookup offset := by
  induction rounds generalizing ahead lexer with
  | zero => rfl
  | succ rounds ih =>
    rw [scan]
    dsimp only
    cases hc : (lexer.next ahead.mode).current with
    | none => rfl
    | some token =>
      dsimp only
      obtain ⟨harrow, hopen, hclose⟩ := h.token hc
      split
      · exact lookup_decideClosed harrow offset
      · rw [ih (h.of_suffix (lexer.next_isSuffix _).1), lookup_follow hopen hclose,
          lookup_decideClosed harrow]

/-- What a token opens and closes does not depend on the answers. -/
theorem follow_withDecided (ahead : Lookahead) (decided : List (Nat × Bool)) (token : Token) :
    { ahead with decided }.follow token = { ahead.follow token with decided } := by
  unfold follow
  split <;> (try split) <;> rfl

/-- Reading ahead that does not see the quiet text behind comes to the same answers with it. -/
theorem lookup_scan_followedBy {tail : List Char} (htail : Quiet tail) {rounds rounds' : Nat}
    (hrounds : rounds ≤ rounds') {ahead : Lookahead} {decided : List (Nat × Bool)}
    (hsame : ∀ offset, decided.lookup offset = ahead.decided.lookup offset) {lexer : Lexer}
    (h : ahead.Clear tail rounds lexer) (hl : lexer.cursor.rest.length < rounds)
    (hf : lexer.Faithful) (offset : Nat) :
    (scan rounds' { ahead with decided } (lexer.followedBy tail)).answers.lookup offset =
      (scan rounds ahead lexer).answers.lookup offset := by
  have hanswers (ahead : Lookahead) {decided : List (Nat × Bool)}
      (hsame : ∀ offset, decided.lookup offset = ahead.decided.lookup offset) :
      { ahead with decided }.answers.lookup offset = ahead.answers.lookup offset := by
    rw [lookup_answers, lookup_answers]
    simp only [hsame]
  induction rounds generalizing lexer rounds' ahead decided with
  | zero => exact absurd hl (Nat.not_lt_zero _)
  | succ rounds ih =>
    obtain ⟨n, rfl⟩ : ∃ n, rounds' = n + 1 := ⟨rounds' - 1, by omega⟩
    obtain ⟨hclear, hrest⟩ := h
    rcases Lexer.next_followedBy hclear.overlooks with hnext | hended
    · rw [scan, scan, hnext, Lexer.followedBy_current]
      cases hc : (lexer.next ahead.mode).current with
      | none => exact hanswers ahead hsame
      | some token =>
        let closed := ahead.closed.toList.map fun paren => (paren, token.kind == .arrow)
        have hdecided : { ahead with decided }.decideClosed token =
            { ahead.decideClosed token with decided := closed ++ decided } := rfl
        have hsame' (offset : Nat) : (closed ++ decided).lookup offset =
            (ahead.decideClosed token).decided.lookup offset := by
          rw [decideClosed, List.lookup_append, List.lookup_append, hsame]
        dsimp only
        rw [hdecided]
        split
        · exact hanswers _ hsame'
        · rename_i hne
          -- the token was not empty, so the cursor has moved
          have hfaithful := hf.next ahead.mode
          have hlt := hfaithful.cursor_lt_left hc
          have hle := lexer.next_left_le ahead.mode
          rw [follow_withDecided]
          refine ih (by omega) (fun offset => ?_) (hrest token hc (by simpa using hne)) (by omega)
            hfaithful
          rw [decided_follow]
          exact hsame' offset
    · -- the pass has come to the end, and goes on over the text behind
      have hquiet : Quiet (lexer.followedBy tail).cursor.rest := by
        rw [Lexer.followedBy_rest, hclear.ends hended.exhausted, List.nil_append]
        exact htail
      have hnone : scan (rounds + 1) ahead lexer = ahead := by
        rw [scan]
        simp only [hended.current]
      rw [lookup_scan_quiet hquiet, hnone, hanswers ahead hsame]

end Lookahead

/-- A moment of a parse that does not see what is behind the text. -/
def Moment.Clear (tail : List Char) : Moment → Parser → Prop
  | .reads mode, parser => parser.lexer.Clear tail mode
  | .rereads mode, parser => parser.lexer.rewound.Overlooks tail mode
  | .asks, parser => ∀ word, parser.lexer.current = some word →
    parser.arrowAnswers.lookup word.start = none →
      (Lookahead.ofParen word.start parser.arrowAnswers).Clear tail parser.budget parser.lexer
  | _, _ => True

namespace ParserM

variable {α β : Type} {tail : List Char}

/-- The second parse has come to the same as the first, with more text behind. -/
structure Longer (tail : List Char) (parser parser' : Parser) : Prop where
  lexer : parser'.lexer = parser.lexer.followedBy tail
  answers : ∀ offset, parser'.arrowAnswers.lookup offset = parser.arrowAnswers.lookup offset
  poised : Poised parser
  marked : parser.lexer.Marked
  budget : parser.budget + tail.length ≤ parser'.budget
  context : parser'.context = parser.context
  operands : parser'.operands = parser.operands
  pendingParams : parser'.pendingParams = parser.pendingParams
  options : parser'.options = parser.options

/-- A parse that has nothing left to read but parts of a name. -/
def Lost (parser : Parser) : Prop := parser.lexer.Spent ∧ parser.lexer.Faithful

theorem lost_lasting : Lasting fun parser after => Lost parser → Lost after where
  refl _ h := h
  trans h h' hlost := h' (h hlost)
  next _ mode h := ⟨h.1.next mode, h.2.next mode⟩
  reread _ mode h := ⟨h.1.reread mode, h.2.reread mode⟩
  buffers _ _ _ _ h := h
  leave h := h

theorem Built.lost {m : ParserM α} (h : Built arrowAhead m) {parser after : Parser} {a : α}
    (hm : m parser = .ok a after) (hlost : Lost parser) : Lost after :=
  (h.keeping lost_lasting (Lasting.arrowAhead lost_lasting fun _ _ h => h)).of_ok hm hlost

/-- No moment of a step sees what is behind the text. -/
structure AllClear (tail : List Char) (m : ParserM α) (parser : Parser) : Prop where
  clear : ∀ {moment between}, Makes arrowAhead m parser moment between →
    Moment.Clear tail moment between

namespace AllClear

variable {m : ParserM α} {f : α → ParserM β} {parser between : Parser} {a : α}

theorem first (h : AllClear tail (m >>= f) parser) (hf : ∀ a, Built arrowAhead (f a)) :
    AllClear tail m parser :=
  ⟨fun hmakes => h.clear (.first hmakes hf)⟩

theorem later (h : AllClear tail (m >>= f) parser) (hm : Built arrowAhead m)
    (hok : m parser = .ok a between) : AllClear tail (f a) between :=
  ⟨fun hmakes => h.clear (.later hm hok hmakes)⟩

theorem inside {frame : Frame} (h : AllClear tail (within frame m) parser)
    (hlt : parser.context.length < parser.options.maxDepth) :
    AllClear tail m { parser with context := frame :: parser.context } :=
  ⟨fun hmakes => h.clear (.inside hlt hmakes)⟩

end AllClear

namespace Longer

variable {parser parser' : Parser}

theorem current (h : Longer tail parser parser') :
    parser'.lexer.current = parser.lexer.current := by
  rw [h.lexer, Lexer.followedBy_current]

theorem inContext (h : Longer tail parser parser') (context : Context) :
    Longer tail { parser with context } { parser' with context } :=
  ⟨h.lexer, h.answers, ⟨h.poised.faithful, h.poised.budget, h.poised.ended⟩, h.marked, h.budget, rfl,
    h.operands, h.pendingParams, h.options⟩

theorem withBuffers (h : Longer tail parser parser') (operands pendingParams : List Node) :
    Longer tail { parser with operands, pendingParams } { parser' with operands, pendingParams } :=
  ⟨h.lexer, h.answers, ⟨h.poised.faithful, h.poised.budget, h.poised.ended⟩, h.marked, h.budget, h.context,
    rfl, rfl, h.options⟩

theorem withAnswers (h : Longer tail parser parser') {answers answers' : List (Nat × Bool)}
    (ha : ∀ offset, answers'.lookup offset = answers.lookup offset) :
    Longer tail { parser with arrowAnswers := answers } { parser' with arrowAnswers := answers' } :=
  ⟨h.lexer, ha, ⟨h.poised.faithful, h.poised.budget, h.poised.ended⟩, h.marked, h.budget, h.context,
    h.operands, h.pendingParams, h.options⟩

theorem next (h : Longer tail parser parser') {mode : LexerMode}
    (ho : parser.lexer.Overlooks tail mode) :
    Longer tail { parser with lexer := parser.lexer.next mode }
        { parser' with lexer := parser'.lexer.next mode } ∨ (parser.lexer.next mode).Ended := by
  rw [h.lexer]
  exact (Lexer.next_followedBy ho).imp_left fun hsame =>
    ⟨hsame, h.answers, h.poised.next mode, parser.lexer.next_marked mode, h.budget, h.context, h.operands, h.pendingParams,
      h.options⟩

theorem reread (h : Longer tail parser parser') {mode : LexerMode}
    (ho : parser.lexer.rewound.Overlooks tail mode) :
    Longer tail { parser with lexer := parser.lexer.reread mode }
        { parser' with lexer := parser'.lexer.reread mode } ∨ (parser.lexer.reread mode).Ended := by
  rw [h.lexer]
  exact (Lexer.reread_followedBy ho).imp_left fun hsame =>
    ⟨hsame, h.answers, h.poised.reread mode, parser.lexer.reread_marked mode, h.budget, h.context, h.operands, h.pendingParams,
      h.options⟩

end Longer

/-- The second step does what the first does, with more text behind, unless the first is lost. -/
structure Beside (tail : List Char) (m m' : ParserM α) : Prop where
  built : Built arrowAhead m
  follow : ∀ {parser parser' a after}, Longer tail parser parser' →
    AllClear tail m parser → m parser = .ok a after →
      (∃ after', m' parser' = .ok a after' ∧ Longer tail after after') ∨ Lost after

namespace Beside

theorem pure (a : α) : Beside tail (pure a : ParserM α) (pure a) where
  built := built_pure a
  follow {_ parser' _ _} h _ hm := by
    cases hm
    exact .inl ⟨parser', rfl, h⟩

theorem bind {m m' : ParserM α} {f f' : α → ParserM β} (hm : Beside tail m m')
    (hf : ∀ a, Beside tail (f a) (f' a)) : Beside tail (m >>= f) (m' >>= f') where
  built := .bind hm.built fun a => (hf a).built
  follow {parser parser' b after} h fine hok := by
    obtain ⟨a, between, hfirst, hrest⟩ := ok_of_bind_ok hok
    rcases hm.follow h (fine.first fun a => (hf a).built) hfirst with ⟨between', hfirst', hbetween⟩ | hl
    · have hrest' := (hf a).follow hbetween (fine.later hm.built hfirst) hrest
      refine hrest'.imp_left fun ⟨after', hrest', hafter⟩ => ?_
      refine ⟨after', ?_, hafter⟩
      rw [run_bind, hfirst']
      exact hrest'
    · exact .inr ((hf a).built.lost hrest hl)

/-- Nothing need be done beside a step that does not succeed. -/
theorem of_fails {m m' : ParserM α} (hbuilt : Built arrowAhead m)
    (hfails : ∀ parser a after, m parser ≠ .ok a after) : Beside tail m m' where
  built := hbuilt
  follow _ _ hm := absurd hm (hfails _ _ _)

theorem reject {error : Parser → SyntaxError} (hcode : ∀ parser, (error parser).code < 1200)
    {m' : ParserM α} : Beside tail (reject error : ParserM α) m' :=
  of_fails (built_reject hcode) fun _ _ _ => nofun

/-- A step that looks at the state, and goes on alike in related states. -/
theorem look {γ : Type} {read : ParserM γ} {value : Parser → γ}
    (hread : ∀ parser, read parser = .ok (value parser) parser) {f f' : γ → ParserM β}
    (hbuilt : ∀ a, Built arrowAhead (f a))
    (hf : ∀ {parser parser'}, Longer tail parser parser' →
      Beside tail (f (value parser)) (f' (value parser'))) :
    Beside tail (read >>= f) (read >>= f') where
  built := .bind (.plain (plain_look fun parser => ⟨_, hread parser⟩)) hbuilt
  follow {parser parser' _ _} h fine hm := by
    have hplain : Built arrowAhead read := .plain (plain_look fun parser => ⟨_, hread parser⟩)
    rw [run_bind, hread] at hm
    rw [run_bind, hread]
    exact (hf h).follow h (fine.later hplain (hread parser)) hm

/-- A step that looks at the constructs in progress. -/
theorem contextOnly (value : Context → α) {m : ParserM α}
    (hm : ∀ parser, m parser = .ok (value parser.context) parser) : Beside tail m m where
  built := .plain (plain_look fun parser => ⟨_, hm parser⟩)
  follow {parser parser' a after} h _ hok := by
    rw [hm] at hok
    cases hok
    exact .inl ⟨parser', by rw [hm, h.context], h⟩

/-- A step that only changes the buffers, by what they hold. -/
theorem buffersOnly {m : ParserM α} {value : Parser → α} {operands pendingParams : Parser → List Node}
    (hm : ∀ parser, m parser = .ok (value parser) { parser with
      operands := operands parser, pendingParams := pendingParams parser })
    (h : ∀ {parser parser' : Parser}, parser'.operands = parser.operands →
      parser'.pendingParams = parser.pendingParams → value parser' = value parser ∧
        operands parser' = operands parser ∧ pendingParams parser' = pendingParams parser) :
    Beside tail m m where
  built := .plain
    { leaves := fun parser => ⟨_, _, parser.diagnostics, by rw [hm]; rfl⟩
      spares := fun {parser _ _} he => by rw [hm parser] at he; cases he }
  follow {parser parser' a after} hl _ hok := by
    obtain ⟨hv, ho, hp⟩ := h hl.operands hl.pendingParams
    rw [hm] at hok
    cases hok
    refine .inl ⟨_, by rw [hm, hv], ?_⟩
    rw [ho, hp]
    exact hl.withBuffers _ _

theorem takeOperand : Beside tail takeOperand takeOperand where
  built := .plain plain_takeOperand
  follow {parser parser' a after} h _ hm := by
    cases ho : parser.operands with
    | nil =>
      simp only [ParserM.takeOperand, run_bind, run_get, ho, run_reject] at hm
      cases hm
    | cons operand operands =>
      rw [run_takeOperand ho] at hm
      cases hm
      refine .inl ⟨_, run_takeOperand (h.operands.trans ho), ?_⟩
      have hb := h.withBuffers operands parser.pendingParams
      simpa only [h.pendingParams] using hb

theorem elementary : PairElementary (fun {α} (m m' : ParserM α) => Beside tail m m') where
  pure := pure
  bind := bind
  current {β f f'} hnone hsome := by
    refine look (fun _ => rfl) (fun word => ?_) fun {parser parser'} h => ?_
    · cases word with
      | none => exact hnone.built
      | some word => exact (hsome word word.start word.stop).built
    · rw [h.current]
      cases parser.lexer.current with
      | none => exact hnone
      | some word => exact hsome word word.start word.stop
  surroundings {β f f'} h := by
    refine look (fun _ => rfl) (fun context => (h (.refl context)).built) fun hl => ?_
    rw [hl.context]
    exact h (.refl _)
  budget h := look (fun _ => rfl) (fun _ => (h le_rfl).built) fun hl => h (Nat.le_of_add_right_le hl.budget)
  outOfSteps :=
    of_fails (.plain ⟨fun _ => ⟨_, _, _, rfl⟩, fun hm => by cases hm⟩) fun _ _ _ => nofun
  unexpected := reject unexpected_code
  wanting wanted := reject fun parser => wanting_code parser wanted
  complaint hm := reject fun parser => complaint_code parser hm
  next hm :=
    { built := .next hm
      follow := fun h fine hok => by
        cases hok
        rcases h.next (fine.clear (.next hm)).overlooks with hnext | hended
        · exact .inl ⟨_, rfl, hnext⟩
        · exact .inr ⟨hended.spent, h.poised.faithful.next _⟩ }
  reread hm :=
    { built := .reread hm
      follow := fun h fine hok => by
        cases hok
        rcases h.reread (fine.clear (.reread hm)) with hagain | hended
        · exact .inl ⟨_, rfl, hagain⟩
        · exact .inr ⟨hended.spent, h.poised.faithful.reread _⟩ }

theorem current : Beside tail current current where
  built := built_elementary.current
  follow {_ parser' _ _} h _ hm := by
    cases hm
    exact .inl ⟨parser', by rw [run_current, h.current], h⟩

theorem token : Beside tail token token := by
  refine bind current fun word => ?_
  cases word with
  | none => exact PairElementary.unexpected elementary
  | some word => exact pure word

theorem nextTokenIn {mode : LexerMode} (hm : mode ∈ ruleModes) :
    Beside tail (nextTokenIn mode) (nextTokenIn mode) :=
  bind (PairElementary.next elementary hm) fun _ => current

theorem within (frame : Frame) {m m' : ParserM α} (h : Beside tail m m') :
    Beside tail (within frame m) (within frame m') where
  built := .within frame h.built
  follow {parser parser' a after} hl fine hm := by
    have hlt : parser.context.length < parser.options.maxDepth := by
      by_contra hfull
      rw [run_within_full (Nat.not_lt.mp hfull)] at hm
      cases hm
    have hlt' : parser'.context.length < parser'.options.maxDepth := by
      rw [hl.context, hl.options]
      exact hlt
    rw [run_within hlt] at hm
    rw [run_within hlt', hl.context]
    cases hin : m { parser with context := frame :: parser.context } with
    | error failure between =>
      rw [hin] at hm
      cases hm
    | ok b between =>
      rw [hin] at hm
      cases hm
      rcases h.follow (hl.inContext (frame :: parser.context)) (fine.inside hlt) hin with
        ⟨between', hin', hbetween⟩ | hlost
      · refine .inl ⟨{ between' with context := between'.context.tail }, ?_, ?_⟩
        · rw [hin']
        · rw [hbetween.context]
          exact hbetween.inContext between.context.tail
      · exact .inr hlost

/-- A word that may stand before a member can be the last one only if nothing closes the braces around
the member. -/
theorem tryModifier {parser parser' after : Parser} {word : Token} {sameLine isModifier : Bool}
    (hl : Longer tail parser parser') (hw : parser.lexer.current = some word)
    (hk : word.kind ∈ [.staticKeyword, .getKeyword, .setKeyword, .identifierName])
    (fine : AllClear tail (tryModifier sameLine) parser)
    (hm : ParserM.tryModifier sameLine parser = .ok isModifier after) :
    (∃ after', ParserM.tryModifier sameLine parser' = .ok isModifier after' ∧
      Longer tail after after') ∨ Lost after := by
  have hclear : Lexer.Clear parser.lexer tail .default := fine.clear .modifier
  rw [run_tryModifier, Lexer.next_returnTo_bookmark] at hm ⊢
  rcases hl.next hclear.overlooks with hnext | hended
  · have hsame : (parser'.lexer.next .default).current = (parser.lexer.next .default).current :=
      hnext.current
    rw [hsame]
    split at hm
    · rename_i hcond
      cases hm
      exact .inl ⟨_, if_pos hcond, hnext⟩
    · rename_i hcond
      cases hm
      have hback : Moment.Clear tail (.rereads .names) parser :=
        fine.clear (.notModifier ((run_tryModifier sameLine).trans (by
          rw [if_neg hcond, Lexer.next_returnTo_bookmark])))
      rcases hl.reread hback with hagain | hend
      · exact .inl ⟨_, if_neg hcond, hagain⟩
      · exact .inr ⟨hend.spent, hl.poised.faithful.reread _⟩
  · right
    have hnot : canStartMember (parser.lexer.next .default).current = false := by
      rw [hended.current]
      rfl
    rw [hnot, Bool.false_and] at hm
    cases hm
    -- nothing is left behind the word, so nothing but the word can be read again
    have hfaithful := hl.poised.faithful
    obtain ⟨hat, hrest⟩ := hfaithful.rewound_at hw
    have hparts := Lexer.isNamePart_of_memberWord hat hk
    have hspent : parser.lexer.Spent := by
      intro c hc
      rw [hrest, hclear.ends hended.exhausted, List.append_nil] at hc
      exact hparts c (hc.resolve_right List.not_mem_nil)
    exact ⟨hspent.reread _, hfaithful.reread _⟩

/-- A step over a word if it passes a test and is a modifier. -/
theorem modifier (sameLine : Bool) {test : Token → Bool} (htest : ∀ word, test word = true →
      word.kind ∈ [.staticKeyword, .getKeyword, .setKeyword, .identifierName]) :
    Beside tail
      (do
        let word ← ParserM.current
        if word.any test then ParserM.tryModifier sameLine else Pure.pure false)
      (do
        let word ← ParserM.current
        if word.any test then ParserM.tryModifier sameLine else Pure.pure false) where
  built := by
    refine .bind built_elementary.current fun word => ?_
    split
    · exact .modifier sameLine
    · exact built_pure false
  follow {parser parser' isModifier after} h fine hm := by
    have hfine := fine.later built_elementary.current (run_current parser)
    rw [run_bind, run_current] at hm ⊢
    rw [h.current]
    dsimp only at hm hfine ⊢
    by_cases hpasses : parser.lexer.current.any test = true
    · rw [if_pos hpasses] at hm hfine ⊢
      obtain ⟨word, hw, ht⟩ := (Option.any_eq_true _ _).mp hpasses
      exact tryModifier h hw (htest word ht) hfine hm
    · rw [if_neg hpasses] at hm ⊢
      cases hm
      exact .inl ⟨parser', rfl, h⟩

theorem collectParams {item item' : ParserM Node} (h : Beside tail item item') :
    Beside tail (collectParams item) (collectParams item') := by
  have hitem : Beside tail (parameterItem item) (parameterItem item') :=
    bind h fun _ => buffersOnly (fun _ => rfl) fun ho hp => ⟨rfl, ho, by rw [hp]⟩
  have hlist : Beside tail (parameterList item) (parameterList item') :=
    bind (PairElementary.closedList elementary hitem _) fun _ => PairElementary.require elementary _
  have htake (mark : Nat) : Beside tail (takeParams mark) (takeParams mark) :=
    buffersOnly (run_takeParams mark) fun ho hp => ⟨by rw [hp], ho, by rw [hp]⟩
  -- the mark from which on parameters are taken up is the same in both parses
  have hcollect (item : ParserM Node) : ParserM.collectParams item =
      ((fun parser => .ok parser.pendingParams.length parser : ParserM Nat) >>= fun mark =>
        parameterList item >>= fun _ => takeParams mark) := by
    funext parser
    rw [run_collectParams]
    rfl
  rw [hcollect, hcollect]
  refine look (fun _ => rfl) (fun mark => (bind hlist fun _ => htake mark).built) fun hl => ?_
  rw [hl.pendingParams]
  exact bind hlist fun _ => htake _

theorem handOver (frame : Frame) (operand : Node) {step step' : Node → ParserM Node}
    (h : ∀ operand, Beside tail (step operand) (step' operand)) :
    Beside tail (handOver frame operand step) (handOver frame operand step') := by
  refine bind (buffersOnly (fun _ => rfl) fun ho hp => ⟨rfl, by rw [ho], hp⟩) fun _ => ?_
  exact within frame (bind takeOperand h)

theorem compositional : PairCompositional (fun {α} (m m' : ParserM α) => Beside tail m m') where
  toPairElementary := elementary
  declaration := contextOnly Context.expectsDeclaration fun _ => rfl
  memberWord {kind} hk := by
    refine modifier false fun word hw => ?_
    rw [eq_of_beq hw]
    exact (by decide : ∀ kind ∈ memberWords,
      kind ∈ [.staticKeyword, .getKeyword, .setKeyword, .identifierName]) kind hk
  asyncWord := by
    refine modifier true fun word hw => ?_
    rw [eq_of_beq (Bool.and_eq_true_iff.mp hw).1]
    decide
  within frame _ _ h := within frame h
  collectParams := collectParams
  handOver frame operand _ _ h := handOver frame operand h

/-- An opening parenthesis is answered alike, be it from what is known or by a pass. -/
theorem arrowAhead (htail : Lookahead.Quiet tail) : Beside tail arrowAhead arrowAhead where
  built := .asks
  follow {parser parser' answer after} h fine hm := by
    have hclear := fine.clear .asks
    rw [run_arrowAhead] at hm
    rw [run_arrowAhead, h.current]
    cases hc : parser.lexer.current with
    | none =>
      rw [hc] at hm
      cases hm
      exact .inl ⟨parser', rfl, h⟩
    | some word =>
      rw [hc] at hm
      dsimp only at hm ⊢
      rw [h.answers]
      cases hk : parser.arrowAnswers.lookup word.start with
      | some answer =>
        rw [hk] at hm
        cases hm
        exact .inl ⟨parser', rfl, h⟩
      | none =>
        rw [hk] at hm
        cases hm
        have hlook (offset : Nat) :
            (lookAhead parser' word.start parser'.arrowAnswers).lookup offset =
              (lookAhead parser word.start parser.arrowAnswers).lookup offset := by
          unfold lookAhead
          rw [h.lexer]
          exact Lookahead.lookup_scan_followedBy htail (Nat.le_of_add_right_le h.budget)
            h.answers
            (hclear word hc hk) h.poised.enough h.poised.faithful offset
        refine .inl ⟨_, ?_, h.withAnswers hlook⟩
        dsimp only
        rw [hlook]

theorem goal (htail : Lookahead.Quiet tail) {room room' : Nat} (hr : room ≤ room') {frame : Frame}
    (entry : Goal) (hf : frame.isEnclosing = true) :
    Beside tail (ParserM.within frame (goal ParserM.arrowAhead room entry))
      (ParserM.within frame (goal ParserM.arrowAhead room' entry)) := by
  refine PairCompositional.goal compositional (fun operand word => ?_) (arrowAhead htail) hr entry hf
  exact contextOnly (fun context => !context.isComplete operand && context.admits operand word)
    fun _ => rfl

end Beside

end ParserM

section Rules

variable {source tail : List Char} {lexer : Lexer}

/-- Whether the rules, tried anywhere in a text and in the modes of a parse, never see what is behind
it. -/
def Rule.neverSee (source tail : List Char) : Bool :=
  source.tails.all fun text => text.isEmpty || ParserM.ruleModes.all fun mode =>
    [true, false].all fun afterOperand => overlooks tail mode afterOperand text

theorem Lexer.clear_of_neverSee (h : Rule.neverSee source tail = true)
    (hs : lexer.cursor.rest <:+ source) {mode : LexerMode} (hmode : mode ∈ ParserM.ruleModes) :
    lexer.Clear tail mode := by
  refine clear_of_rules fun text htext hne => ?_
  have hin : text ∈ source.tails := (List.mem_tails _ _).mpr (htext.trans hs)
  have hall := List.all_eq_true.mp h text hin
  have hempty : text.isEmpty = false := by simpa using hne
  rw [hempty, Bool.false_or] at hall
  exact List.all_eq_true.mp (List.all_eq_true.mp hall mode hmode) lexer.afterOperand
    (by cases lexer.afterOperand <;> simp)

theorem Lookahead.clear_of_neverSee (h : Rule.neverSee source tail = true) (rounds : Nat)
    {ahead : Lookahead} (hs : lexer.cursor.rest <:+ source) (hmode : ahead.mode ∈ ParserM.ruleModes) :
    ahead.Clear tail rounds lexer := by
  induction rounds generalizing lexer ahead with
  | zero => trivial
  | succ rounds ih =>
    exact ⟨Lexer.clear_of_neverSee h hs hmode, fun token _ _ =>
      ih ((lexer.next_isSuffix ahead.mode).1.trans hs) (ahead.mode_follow_mem token)⟩

namespace ParserM

/-- What is left of the text, also if the token that comes next is read again. -/
theorem isSuffix_lasting : Lasting fun parser after =>
    ∀ source, (parser.lexer.cursor.rest <:+ source ∧ parser.lexer.rewound.cursor.rest <:+ source) →
      (after.lexer.cursor.rest <:+ source ∧ after.lexer.rewound.cursor.rest <:+ source) where
  refl _ _ h := h
  trans h h' source hs := h' source (h source hs)
  next parser mode source hs :=
    have hnext := parser.lexer.next_isSuffix mode
    ⟨hnext.1.trans hs.1, hnext.2.trans hs.1⟩
  reread parser mode source hs := by
    have hnext := parser.lexer.rewound.next_isSuffix mode
    rw [← Lexer.reread_eq_next] at hnext
    exact ⟨hnext.1.trans hs.2, hnext.2.trans hs.2⟩
  buffers _ _ _ _ _ h := h
  leave h := h

/-- Where the rules never see what is behind a text, no moment of its parse does. -/
theorem clear_of_neverSee {text : String} {options : ParserOptions}
    (h : Rule.neverSee text.toList tail = true) {moment : Moment} {parser : Parser}
    (hmakes : Makes arrowAhead (program arrowAhead) (Parser.ofText text options) moment parser) :
    moment.Clear tail parser := by
  obtain ⟨hrest, hagain⟩ := hmakes.keeping isSuffix_lasting (fun _ _ _ h => h)
    (Lasting.arrowAhead isSuffix_lasting fun _ _ _ h => h) text.toList ⟨List.suffix_rfl, List.suffix_rfl⟩
  cases moment with
  | reads mode => exact Lexer.clear_of_neverSee h hrest (hmakes.mode (.inl rfl))
  | rereads mode => exact (Lexer.clear_of_neverSee h hagain (hmakes.mode (.inr rfl))).overlooks
  | asks =>
    exact fun word _ _ => Lookahead.clear_of_neverSee h _ hrest (by simp [Lookahead.ofParen, ruleModes])
  | begins => trivial
  | enters frame => trivial

end ParserM

end Rules

end ScriptTree
