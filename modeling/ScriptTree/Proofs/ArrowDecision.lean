import ScriptTree.Proofs.BracketCrossing
import ScriptTree.Proofs.Progress

/-!
What reading ahead decides.

A parenthesis is decided by the token behind the one that closes it, and the answer is not changed
any more. One pass decides the parentheses inside the first one too; all its answers are right.
-/

namespace ScriptTree

/-- Two places of a text with the same number of bytes before them are the same. -/
theorem eq_of_byteLength_eq {front front' text text' : List Char}
    (h : front ++ text = front' ++ text') (hb : byteLength front = byteLength front') :
    text = text' := by
  have hnil : ∀ piece : List Char, byteLength piece = 0 → piece = [] := by
    intro piece hp
    cases piece with
    | nil => rfl
    | cons c piece =>
      have hc := c.utf8Size_pos
      rw [byteLength] at hp
      omega
  rcases List.append_eq_append_iff.mp h with ⟨piece, rfl, ht⟩ | ⟨piece, rfl, ht⟩
  · rw [byteLength_append] at hb
    have hp := hnil piece (by omega)
    rw [ht, hp, List.nil_append]
  · rw [byteLength_append] at hb
    have hp := hnil piece (by omega)
    rw [ht, hp, List.nil_append]

/-- Where the current token is an opening parenthesis. -/
theorem Lexer.Faithful.splits_at_paren {lexer : Lexer} (h : lexer.Faithful) {token : Token}
    (ht : lexer.current = some token) (hk : token.kind = .openParen) : ∃ front,
      lexer.source = front ++ '(' :: lexer.cursor.rest ∧ byteLength front = token.start := by
  obtain ⟨place, closesOperand, history, hh, hat, hc⟩ := h.current token ht
  obtain ⟨tokens, htiled⟩ := h.tiled
  rw [hh] at htiled
  obtain ⟨others, hback⟩ := htiled.back
  obtain ⟨front, hs, ho⟩ := hback.splits
  obtain ⟨hraw, rest, hrest⟩ := hat.of_openParen hk
  refine ⟨front, ?_, ?_⟩
  · rw [hc, Cursor.advance, hraw, hs, hrest]
    rfl
  · rw [← ho]
    exact hat.spans.1.symm

namespace Lookahead

/-- An answer about the parenthesis at an offset is right: if the parenthesis is closed, an arrow is
behind the closing one if and only if the answer says so. -/
def Right (source : List Char) (entry : Nat × Bool) : Prop :=
  ∀ front inner rest, source = front ++ '(' :: inner → byteLength front = entry.1 →
    Closes inner rest → (entry.2 = true ↔ ArrowBehind rest)

/-- What is known about a parenthesis: an answer, or that it is open or just closed. -/
def Known (ahead : Lookahead) (entry : Nat × Bool) : Prop :=
  entry ∈ ahead.decided ∨ ahead.closed = some entry.1 ∨ entry.1 ∈ ahead.openParens

theorem known_of_answers {ahead : Lookahead} {entry : Nat × Bool} (h : entry ∈ ahead.answers) :
    Known ahead entry := by
  rcases (mem_answers ahead).mp h with ⟨-, hknown⟩ | hin
  · exact Or.inr hknown
  · exact Or.inl hin

theorem Known.of_decideClosed {ahead : Lookahead} {token : Token} {entry : Nat × Bool}
    (h : Known (ahead.decideClosed token) entry) : Known ahead entry := by
  rcases h with hin | hclosed | hopen
  · rcases (mem_decideClosed ahead token).mp hin with ⟨hclosed, -⟩ | hin
    · exact Or.inr (Or.inl hclosed)
    · exact Or.inl hin
  · cases hclosed
  · exact Or.inr (Or.inr hopen)

theorem Known.of_follow {ahead : Lookahead} {token : Token} {entry : Nat × Bool}
    (h : Known (ahead.follow token) entry) :
    Known ahead entry ∨ entry.1 = token.start ∧ token.kind = .openParen := by
  rcases h with hin | hclosed | hopen
  · rw [decided_follow] at hin
    exact Or.inl (Or.inl hin)
  · rcases closed_follow ahead token hclosed with hclosed | ⟨hopen, -⟩
    · exact Or.inl (Or.inr (Or.inl hclosed))
    · exact Or.inl (Or.inr (Or.inr hopen))
  · rcases mem_follow ahead token hopen with hnew | hopen
    · exact Or.inr hnew
    · exact Or.inl (Or.inr (Or.inr hopen))

theorem answers_of_decided {entry : Nat × Bool} (rounds : Nat) {ahead : Lookahead} (lexer : Lexer)
    (h : entry ∈ ahead.decided) : entry ∈ (scan rounds ahead lexer).answers := by
  induction rounds generalizing ahead lexer with
  | zero => exact (mem_answers ahead).mpr (Or.inr h)
  | succ rounds ih =>
    rw [scan]
    dsimp only
    split
    · exact (mem_answers ahead).mpr (Or.inr h)
    · rename_i token _
      have hd : entry ∈ (ahead.decideClosed token).decided :=
        (mem_decideClosed ahead token).mpr (Or.inr h)
      split
      · exact (mem_answers _).mpr (Or.inr hd)
      · apply ih
        rw [decided_follow]
        exact hd

/-- Every parenthesis that is open or just closed gets an answer. -/
theorem exists_answer {paren : Nat} (rounds : Nat) {ahead : Lookahead} (lexer : Lexer)
    (h : ahead.closed = some paren ∨ paren ∈ ahead.openParens) :
    ∃ answer, (paren, answer) ∈ (scan rounds ahead lexer).answers := by
  induction rounds generalizing ahead lexer with
  | zero => exact ⟨false, (mem_answers ahead).mpr (Or.inl ⟨rfl, h⟩)⟩
  | succ rounds ih =>
    rw [scan]
    dsimp only
    split
    · exact ⟨false, (mem_answers ahead).mpr (Or.inl ⟨rfl, h⟩)⟩
    · rename_i token _
      rcases h with hclosed | hopen
      · -- the token decides it
        have hd : (paren, token.kind == .arrow) ∈ (ahead.decideClosed token).decided :=
          (mem_decideClosed ahead token).mpr (Or.inl ⟨hclosed, rfl⟩)
        split
        · exact ⟨_, (mem_answers _).mpr (Or.inr hd)⟩
        · rw [← decided_follow _ token] at hd
          exact ⟨_, answers_of_decided rounds _ hd⟩
      · split
        · exact ⟨false, (mem_answers _).mpr (Or.inl ⟨rfl, Or.inr hopen⟩)⟩
        · exact ih _ (open_follow (ahead.decideClosed token) token hopen)

/-- A parenthesis that is neither open nor just closed. -/
def Settled (paren : Nat) (ahead : Lookahead) : Prop :=
  paren ∉ ahead.openParens ∧ ahead.closed ≠ some paren

theorem settled_decideClosed {paren : Nat} {ahead : Lookahead} {token : Token}
    (ho : paren ∉ ahead.openParens) : Settled paren (ahead.decideClosed token) := by
  refine ⟨ho, ?_⟩
  intro hc
  cases hc

theorem Settled.decided {paren : Nat} {answer : Bool} {ahead : Lookahead}
    (h : Settled paren ahead) (hk : Known ahead (paren, answer)) :
    (paren, answer) ∈ ahead.decided := by
  rcases hk with hin | hclosed | hopen
  · exact hin
  · exact absurd hclosed h.2
  · exact absurd hopen h.1

/-- A token behind a parenthesis that is not open settles it. -/
theorem settled_follow {paren : Nat} {ahead : Lookahead} {token : Token}
    (ho : paren ∉ ahead.openParens) (hp : paren < token.start) :
    Settled paren ((ahead.decideClosed token).follow token) := by
  constructor
  · intro hin
    rcases mem_follow _ token hin with ⟨rfl, -⟩ | hin
    · exact Nat.lt_irrefl _ hp
    · exact ho hin
  · intro hin
    rcases closed_follow _ token hin with hin | ⟨hin, -⟩
    · cases hin
    · exact ho hin

/-- About a settled parenthesis nothing more is decided. -/
theorem decided_of_answers {paren : Nat} {answer : Bool} (rounds : Nat) {ahead : Lookahead}
    {lexer : Lexer} (hs : Settled paren ahead) (hp : paren < lexer.cursor.offset)
    (h : (paren, answer) ∈ (scan rounds ahead lexer).answers) :
    (paren, answer) ∈ ahead.decided := by
  induction rounds generalizing ahead lexer with
  | zero => exact hs.decided (known_of_answers h)
  | succ rounds ih =>
    rw [scan] at h
    dsimp only at h
    split at h
    · exact hs.decided (known_of_answers h)
    · rename_i token ht
      obtain ⟨hbefore, hbehind⟩ := Lexer.next_offsets ht
      split at h
      · exact hs.decided (known_of_answers h).of_decideClosed
      · have hin := ih (settled_follow hs.1 (by omega)) (by omega) h
        rw [decided_follow] at hin
        exact hs.decided (Known.of_decideClosed (Or.inl hin))

namespace Position

variable {here : Position} {paren : Nat} {inner rest : List Char}

/-- A parenthesis that is not open any more is decided by the next token, if not before. -/
theorem decides_closed (he : here.Enough) (hm : here.ahead.mode = .default)
    (hp : paren < here.lexer.cursor.offset) (ho : paren ∉ here.ahead.openParens) {answer : Bool}
    (hin : (paren, answer) ∈ here.outcome.answers) : (paren, answer) ∈ here.ahead.decided ∨
      (answer = true ↔ ArrowBehind here.lexer.cursor.rest) := by
  obtain ⟨rounds, hr⟩ : ∃ rounds, here.rounds = rounds + 1 :=
    Nat.exists_eq_succ_of_ne_zero (by
      unfold Enough at he
      omega)
  have harrow := here.lexer.next_isArrow_iff
  unfold outcome at hin
  rw [hr, scan, hm] at hin
  cases ht : (here.lexer.next .default).current with
  | none =>
    rw [ht] at harrow hin
    rcases (mem_answers _).mp hin with ⟨rfl, -⟩ | hin
    · exact Or.inr harrow
    · exact Or.inl hin
  | some token =>
    rw [ht] at harrow hin
    obtain ⟨hbefore, hbehind⟩ := Lexer.next_offsets ht
    -- once the token is read, nothing more is decided about this parenthesis
    have hd : (paren, answer) ∈ (here.ahead.decideClosed token).decided := by
      dsimp only at hin
      split at hin
      · exact (settled_decideClosed ho).decided (known_of_answers hin)
      · rw [← decided_follow _ token]
        exact decided_of_answers rounds (settled_follow ho (by omega)) (by omega) hin
    rcases (mem_decideClosed _ token).mp hd with ⟨-, rfl⟩ | hin
    · exact Or.inr harrow
    · exact Or.inl hin

/-- A parenthesis that has just been opened is decided by the token behind the one that closes it:
what is inside is crossed. -/
theorem decides_open {others : List Nat} (hr : here.Ready (.tokens (some false)) inner)
    (ho : here.ahead.openParens = paren :: others) (hc : here.ahead.closed = none)
    (hp : paren < here.lexer.cursor.offset) (hn : paren ∉ others) (hcloses : Closes inner rest)
    {answer : Bool} (hin : (paren, answer) ∈ here.outcome.answers) :
    (paren, answer) ∈ here.ahead.decided ∨ (answer = true ↔ ArrowBehind rest) := by
  obtain ⟨between, hstretch, hb⟩ := hcloses
  obtain ⟨there, hgoes, hlevel, hready⟩ :=
    crosses_of_stretch hstretch here.lexer.cursor.offset here hr (le_refl _)
  obtain ⟨closing, last, hread, hk, -, -⟩ :=
    hready.reads_bracket (by decide : (')', .closeParen) ∈ brackets) hb
  have hopen : there.ahead.openParens = paren :: others := hlevel.openParens.trans ho
  have hahead : last.ahead = { there.ahead.decideClosed closing with
      closed := some paren
      openParens := others } := by
    rw [hread.ahead, follow, hk]
    simp [decideClosed, hopen]
  have hoffset := hread.before.trans hread.behind.le
  rw [hgoes.outcome, hread.outcome] at hin
  have hlast := @decides_closed last paren hread.enough (congrArg mode hahead)
    (hp.trans_le (hgoes.offset.trans hoffset)) (by rw [hahead]; exact hn) answer hin
  rw [hread.rest] at hlast
  refine hlast.imp_left fun hdecided => ?_
  -- nothing was decided about this parenthesis on the way
  have hthere : (paren, answer) ∈ there.ahead.decided := by
    rcases hread.mem_decided.mp hdecided with ⟨hclosed, -⟩ | hin
    · rcases hgoes.closed paren hclosed with hclosed | hlow
      · rw [hc] at hclosed
        cases hclosed
      · omega
    · exact hin
  rcases hgoes.decided _ hthere with hin | hclosed | hlow
  · exact hin
  · rw [hc] at hclosed
    cases hclosed
  · exact absurd hlow (Nat.not_le.mpr hp)

/-- On the way through a text: the parentheses that are open or just closed are behind. -/
structure Underway (source : List Char) (here : Position) : Prop where
  faithful : here.lexer.Faithful
  source : here.lexer.source = source
  enough : here.Enough
  ordered : here.ahead.Ordered
  opened : ∀ paren ∈ here.ahead.openParens, paren < here.lexer.cursor.offset
  closed : ∀ paren, here.ahead.closed = some paren → paren < here.lexer.cursor.offset

/-- One token further. -/
theorem Underway.step {source : List Char} {rounds : Nat} {ahead : Lookahead} {lexer : Lexer}
    (h : Underway source ⟨rounds + 1, ahead, lexer⟩) {token : Token}
    (ht : (lexer.next ahead.mode).current = some token) :
    Underway source
      ⟨rounds, (ahead.decideClosed token).follow token, lexer.next ahead.mode⟩ := by
  obtain ⟨hbefore, hbehind⟩ := Lexer.next_offsets ht
  have hfaithful := h.faithful.next ahead.mode
  have hcleared : (ahead.decideClosed token).Ordered := h.ordered
  refine ⟨hfaithful, ?_, ?_, hcleared.follow token, ?_, ?_⟩
  -- the rounds, then the open parentheses and the closed one
  · rw [← h.source]
    exact lexer.next_source ahead.mode
  · have hshort : (lexer.next ahead.mode).cursor.rest.length < (lexer.next ahead.mode).left :=
      hfaithful.cursor_lt_left ht
    have hleft := lexer.next_left_le ahead.mode
    have henough : lexer.cursor.rest.length < rounds + 1 := h.enough
    change (lexer.next ahead.mode).cursor.rest.length < rounds
    omega
  · intro paren hin
    change paren < (lexer.next ahead.mode).cursor.offset
    rcases mem_follow _ token hin with ⟨rfl, -⟩ | hin
    · exact hbehind
    · have hlt : paren < lexer.cursor.offset := h.opened paren hin
      omega
  · intro paren hin
    change paren < (lexer.next ahead.mode).cursor.offset
    rcases closed_follow _ token hin with hin | ⟨hin, -⟩
    · cases hin
    · have hlt : paren < lexer.cursor.offset := h.opened paren hin
      omega

/-- What is found out about a parenthesis behind which reading ahead stands is right. -/
theorem right_of_open {source front : List Char} {others : List Nat} (h : Underway source here)
    (ho : here.ahead.openParens = paren :: others) (hc : here.ahead.closed = none)
    (hm : here.ahead.mode = .default) (ha : here.lexer.afterOperand = false) (hn : paren ∉ others)
    (hs : source = front ++ '(' :: here.lexer.cursor.rest) (hf : byteLength front = paren)
    {answer : Bool} (hin : (paren, answer) ∈ here.outcome.answers) :
    (paren, answer) ∈ here.ahead.decided ∨ Right source (paren, answer) := by
  have hready : here.Ready (.tokens (some false)) here.lexer.cursor.rest := by
    refine ⟨h.enough, h.ordered, ?_, rfl, hm, ?_⟩
    · rw [ho]
      exact List.cons_ne_nil _ _
    · intro ended hended
      cases hended
      exact ha
  have hp : paren < here.lexer.cursor.offset := by
    apply h.opened
    rw [ho]
    exact List.mem_cons_self ..
  by_cases hd : (paren, answer) ∈ here.ahead.decided
  · exact Or.inl hd
  · refine Or.inr fun front' inner rest hs' hf' hcloses => ?_
    -- the parenthesis is the one that was opened, since it is at the same offset
    have hinner : here.lexer.cursor.rest = inner := by
      have heq := eq_of_byteLength_eq (hs.symm.trans hs') (hf.trans hf'.symm)
      exact (List.cons.inj heq).2
    rw [← hinner] at hcloses
    exact (decides_open hready ho hc hp hn hcloses hin).resolve_left hd

/-- The parenthesis that a token opens is decided on the rest of the way. -/
theorem Underway.right_of_token {source : List Char} {rounds : Nat} {ahead : Lookahead}
    {lexer : Lexer} (h : Underway source ⟨rounds + 1, ahead, lexer⟩) {token : Token}
    (ht : (lexer.next ahead.mode).current = some token) (hk : token.kind = .openParen)
    {answer : Bool} (hin : (token.start, answer) ∈ (scan rounds
      ((ahead.decideClosed token).follow token) (lexer.next ahead.mode)).answers) :
    Known ahead (token.start, answer) ∨ Right source (token.start, answer) := by
  have hstep := h.step ht
  obtain ⟨front, hs, hf⟩ := hstep.faithful.splits_at_paren ht hk
  have hsource : source = front ++ '(' :: (lexer.next ahead.mode).cursor.rest :=
    hstep.source.symm.trans hs
  have hahead : (ahead.decideClosed token).follow token =
      { ahead.decideClosed token with openParens := token.start :: ahead.openParens } := by
    rw [follow, hk]
    rfl
  -- older parentheses start before the token
  have hnew : token.start ∉ ahead.openParens := by
    intro hopen
    have hlt : token.start < lexer.cursor.offset := h.opened _ hopen
    exact absurd (Lexer.next_offsets ht).1 (Nat.not_le.mpr hlt)
  have hended := Lexer.afterOperand_of_openParen ht hk
  rcases right_of_open hstep (congrArg openParens hahead) (congrArg Lookahead.closed hahead)
    (congrArg mode hahead) hended hnew hsource hf hin with hd | hright
  · rw [decided_follow] at hd
    exact Or.inl (Known.of_decideClosed (Or.inl hd))
  · exact Or.inr hright

end Position

/-- All answers of a pass are right, but those that were known before and those about parentheses
that were open or just closed at its start. -/
theorem answers_right {source : List Char} (rounds : Nat) {ahead : Lookahead} {lexer : Lexer}
    (h : Position.Underway source ⟨rounds, ahead, lexer⟩) {entry : Nat × Bool}
    (hin : entry ∈ (scan rounds ahead lexer).answers) :
    Known ahead entry ∨ Right source entry := by
  induction rounds generalizing ahead lexer with
  | zero => exact Or.inl (known_of_answers hin)
  | succ rounds ih =>
    -- what is known after one more token was known before, or it is about that token
    rw [scan] at hin
    dsimp only at hin
    split at hin
    · exact Or.inl (known_of_answers hin)
    · rename_i token ht
      split at hin
      · exact Or.inl (known_of_answers hin).of_decideClosed
      · have hstep := h.step ht
        rcases ih hstep hin with hknown | hright
        · rcases hknown.of_follow with hknown | ⟨hparen, hk⟩
          · exact Or.inl hknown.of_decideClosed
          · obtain ⟨paren, answer⟩ := entry
            cases hparen
            exact h.right_of_token ht hk hin
        · exact Or.inr hright

end Lookahead

end ScriptTree
