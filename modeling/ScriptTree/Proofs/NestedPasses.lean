import ScriptTree.Proofs.ArrowDecision
import ScriptTree.Proofs.Termination

/-!
What a pass that starts further out finds out about a parenthesis.

A pass keeps count of the braces and substitutions that are open, and one that starts at an inner
parenthesis does not know of those around it. That makes no difference to the answer unless a brace
ends one of the substitutions around while the inner parenthesis is still open: then the pass from
further out goes on with template text, and the other one does not.
-/

namespace ScriptTree

namespace Lexer

/-- Streams from which the same tokens come. -/
structure Alike (lexer lexer' : Lexer) : Prop where
  cursor : lexer'.cursor = lexer.cursor
  afterOperand : lexer'.afterOperand = lexer.afterOperand

theorem Alike.next {lexer lexer' : Lexer} (h : Alike lexer lexer') (mode : LexerMode) :
    Alike (lexer.next mode) (lexer'.next mode) ∧
      (lexer'.next mode).current = (lexer.next mode).current := by
  unfold Lexer.next
  rw [h.cursor, h.afterOperand]
  cases seek mode lexer.afterOperand (lexer.cursor.rest.length + 1) lexer.cursor false with
  | token start kind lexeme precedence newline =>
    refine ⟨⟨rfl, ?_⟩, rfl⟩
    change tokenClosesOperand lexer'.afterOperand kind lexeme newline =
      tokenClosesOperand lexer.afterOperand kind lexeme newline
    rw [h.afterOperand]
  | stuck place => exact ⟨⟨rfl, h.afterOperand⟩, rfl⟩
  | finished place => exact ⟨⟨rfl, h.afterOperand⟩, rfl⟩

/-- The cursor stands right behind the parenthesis that is the current token. -/
theorem Faithful.behind_paren {lexer : Lexer} {token : Token} (h : lexer.Faithful)
    (ht : lexer.current = some token) (hk : token.kind = .openParen) :
    lexer.cursor.offset = token.start + 1 := by
  obtain ⟨place, closesOperand, history, -, hat, hc⟩ := h.current token ht
  have hstart := hat.spans.1
  rw [hc, Cursor.advance, (hat.of_openParen hk).1, hstart]
  rfl

/-- Two streams over a text that stand at the same parenthesis. -/
theorem Faithful.alike_at_paren {lexer lexer' : Lexer} (h : lexer.Faithful) (h' : lexer'.Faithful)
    (hs : lexer'.source = lexer.source) {token token' : Token} (ht : lexer.current = some token)
    (ht' : lexer'.current = some token') (hk : token.kind = .openParen)
    (hk' : token'.kind = .openParen) (hstart : token'.start = token.start)
    (ha : lexer.afterOperand = false) (ha' : lexer'.afterOperand = false) : Alike lexer lexer' := by
  obtain ⟨front, hsplit, hf⟩ := h.splits_at_paren ht hk
  obtain ⟨front', hsplit', hf'⟩ := h'.splits_at_paren ht' hk'
  have hrest : '(' :: lexer.cursor.rest = '(' :: lexer'.cursor.rest := by
    apply eq_of_byteLength_eq (hsplit.symm.trans (hs.symm.trans hsplit'))
    omega
  have hoffset : lexer'.cursor.offset = lexer.cursor.offset := by
    rw [h.behind_paren ht hk, h'.behind_paren ht' hk', hstart]
  refine ⟨?_, ha'.trans ha.symm⟩
  calc lexer'.cursor = ⟨lexer'.cursor.offset, lexer'.cursor.rest⟩ := rfl
    _ = ⟨lexer.cursor.offset, lexer.cursor.rest⟩ := by rw [hoffset, (List.cons.inj hrest).2]
    _ = lexer.cursor := rfl

end Lexer

namespace Lookahead

theorem scan_alike {lexer lexer' : Lexer} (h : lexer.Alike lexer') (rounds : Nat)
    (ahead : Lookahead) : scan rounds ahead lexer' = scan rounds ahead lexer := by
  induction rounds generalizing ahead lexer lexer' with
  | zero => rfl
  | succ rounds ih =>
    obtain ⟨hnext, hcurrent⟩ := h.next ahead.mode
    simp only [scan, hcurrent, ih hnext]

/-- More rounds than there are characters are as good as any other number of them. -/
theorem scan_enough {lexer : Lexer} (hf : lexer.Faithful) {rounds rounds' : Nat}
    (h : lexer.cursor.rest.length < rounds) (h' : lexer.cursor.rest.length < rounds')
    (ahead : Lookahead) : scan rounds ahead lexer = scan rounds' ahead lexer := by
  rcases Nat.le_total rounds rounds' with hle | hle
  · obtain ⟨extra, rfl⟩ := Nat.exists_eq_add_of_le hle
    exact (scan_add extra rounds ahead hf h).symm
  · obtain ⟨extra, rfl⟩ := Nat.exists_eq_add_of_le hle
    exact scan_add extra rounds' ahead hf h'

/-- Whether a token ends the innermost substitution. -/
def endsSubstitution (ahead : Lookahead) (token : Token) : Bool :=
  token.kind == .closeBrace && ahead.substitutions.head? == some ahead.braces

/-- The places at which the open substitutions start, followed through a token. -/
def followStarts (ahead : Lookahead) (token : Token) (starts : List Nat) : List Nat :=
  if ahead.endsSubstitution token then starts.tail
  else if token.kind == .templateChunk && opensSubstitution token.raw then token.start :: starts
  else starts

/-- Whether no parenthesis is open that was opened behind the start of a substitution that a token
ends. -/
def endsNested (ahead : Lookahead) (token : Token) (starts : List Nat) : Bool :=
  !ahead.endsSubstitution token ||
    ahead.openParens.all fun paren => starts.head?.all fun start => paren < start

/-- Whether on reading on no substitution ends while a parenthesis that was opened in it is open. -/
def nested : Nat → Lookahead → List Nat → Lexer → Bool
  | 0, _, _, _ => true
  | rounds + 1, ahead, starts, lexer =>
    let lexer := lexer.next ahead.mode
    match lexer.current with
    | none => true
    | some token =>
      let ahead := ahead.decideClosed token
      ahead.openParens.isEmpty || (ahead.endsNested token starts &&
        nested rounds (ahead.follow token) (ahead.followStarts token starts) lexer)

/-- A parenthesis that is open, and the outermost one. -/
def Opened (paren : Nat) (ahead : Lookahead) : Prop :=
  ahead.closed ≠ some paren ∧
    ∃ newer, ahead.openParens = newer ++ [paren] ∧ ∀ other ∈ newer, paren < other

/-- The outermost parenthesis has just been closed. -/
def JustClosed (paren : Nat) (ahead : Lookahead) : Prop :=
  ahead.closed = some paren ∧ ahead.openParens = []

section Own

variable {paren : Nat} {ahead : Lookahead} {token : Token}

theorem Opened.le (h : Opened paren ahead) {other : Nat} (hin : other ∈ ahead.openParens) :
    paren ≤ other := by
  obtain ⟨-, newer, hopen, hnewer⟩ := h
  rw [hopen] at hin
  rcases List.mem_append.mp hin with hin | hin
  · exact (hnewer other hin).le
  · exact (List.mem_singleton.mp hin).ge

theorem Opened.mem (h : Opened paren ahead) : paren ∈ ahead.openParens := by
  obtain ⟨-, newer, hopen, -⟩ := h
  rw [hopen]
  exact List.mem_append_right newer (List.mem_singleton_self paren)

/-- The outermost parenthesis stays open, or the token closes it. -/
theorem Opened.follow (h : Opened paren ahead) (hp : paren < token.start) :
    Opened paren ((ahead.decideClosed token).follow token) ∨
      JustClosed paren ((ahead.decideClosed token).follow token) := by
  obtain ⟨-, newer, hopen, hnewer⟩ := h
  have hopen' : (ahead.decideClosed token).openParens = newer ++ [paren] := hopen
  have hclosed : (ahead.decideClosed token).closed ≠ some paren := nofun
  generalize ahead.decideClosed token = ahead at hopen' hclosed
  unfold Lookahead.follow
  split
  -- an opening parenthesis, a closing one, and what touches no parenthesis
  · refine .inl ⟨hclosed, token.start :: newer, congrArg _ hopen', fun other hin => ?_⟩
    rcases List.mem_cons.mp hin with rfl | hin
    · exact hp
    · exact hnewer other hin
  · cases newer with
    | nil =>
      refine .inr ⟨?_, ?_⟩
      · simp [hopen']
      · simp [hopen']
    | cons first newer =>
      refine .inl ⟨?_, newer, ?_, fun other hin => hnewer other (List.mem_cons_of_mem _ hin)⟩
      · have hlt := hnewer first List.mem_cons_self
        simp only [hopen', List.cons_append, List.head?_cons, ne_eq, Option.some.injEq]
        omega
      · simp [hopen']
  · exact .inl ⟨hclosed, newer, hopen', hnewer⟩
  · split
    · exact .inl ⟨hclosed, newer, hopen', hnewer⟩
    · exact .inl ⟨hclosed, newer, hopen', hnewer⟩
  · exact .inl ⟨hclosed, newer, hopen', hnewer⟩
  · split
    · exact .inl ⟨hclosed, newer, hopen', hnewer⟩
    · exact .inl ⟨hclosed, newer, hopen', hnewer⟩
  · exact .inl ⟨hclosed, newer, hopen', hnewer⟩

theorem JustClosed.decided (h : JustClosed paren ahead) (hd : ∀ answer, (paren, answer) ∉ ahead.decided)
    {answer : Bool} : (paren, answer) ∈ (ahead.decideClosed token).answers ↔
      answer = (token.kind == .arrow) := by
  rw [mem_answers]
  constructor
  · rintro (⟨-, hclosed | hopen⟩ | hin)
    · cases hclosed
    · change paren ∈ ahead.openParens at hopen
      rw [h.2] at hopen
      cases hopen
    · rcases (mem_decideClosed ahead token).mp hin with ⟨-, hanswer⟩ | hin
      · exact hanswer
      · exact absurd hin (hd answer)
  · intro hanswer
    exact .inr ((mem_decideClosed ahead token).mpr (.inl ⟨h.1, hanswer⟩))

/-- While a parenthesis is open or just closed, no other answer to it is given than that none is
known. -/
theorem answer_undecided (hd : ∀ answer, (paren, answer) ∉ ahead.decided) {answer : Bool}
    (hin : (paren, answer) ∈ ahead.answers) : answer = false := by
  rcases (mem_answers ahead).mp hin with ⟨hanswer, -⟩ | hin
  · exact hanswer
  · exact absurd hin (hd answer)

/-- A pass gives one answer to the parenthesis it starts from. -/
theorem answer_unique (rounds : Nat) {ahead : Lookahead} {lexer : Lexer}
    (h : Opened paren ahead ∨ JustClosed paren ahead)
    (hd : ∀ answer, (paren, answer) ∉ ahead.decided) (hp : paren < lexer.cursor.offset)
    {answer answer' : Bool} (hin : (paren, answer) ∈ (scan rounds ahead lexer).answers)
    (hin' : (paren, answer') ∈ (scan rounds ahead lexer).answers) : answer = answer' := by
  induction rounds generalizing ahead lexer with
  | zero => exact (answer_undecided hd hin).trans (answer_undecided hd hin').symm
  | succ rounds ih =>
    rw [scan] at hin hin'
    dsimp only at hin hin'
    cases ht : (lexer.next ahead.mode).current with
    | none =>
      rw [ht] at hin hin'
      exact (answer_undecided hd hin).trans (answer_undecided hd hin').symm
    | some token =>
      rw [ht] at hin hin'
      dsimp only at hin hin'
      obtain ⟨hbefore, hbehind⟩ := Lexer.next_offsets ht
      rcases h with hopened | hclosed
      · have hne : (ahead.decideClosed token).openParens.isEmpty = false :=
          List.isEmpty_eq_false_iff.mpr (List.ne_nil_of_mem hopened.mem)
        rw [if_neg (by simp [hne])] at hin hin'
        -- the token decides another parenthesis, if any
        have hd' : ∀ answer, (paren, answer) ∉ ((ahead.decideClosed token).follow token).decided := by
          intro answer hin
          rw [decided_follow] at hin
          rcases (mem_decideClosed ahead token).mp hin with ⟨hclosed, -⟩ | hin
          · exact hopened.1 hclosed
          · exact hd answer hin
        exact ih (hopened.follow (by omega)) hd' (by omega) hin hin'
      · have he : (ahead.decideClosed token).openParens.isEmpty = true :=
          List.isEmpty_iff.mpr hclosed.2
        rw [if_pos he] at hin hin'
        exact ((hclosed.decided hd).mp hin).trans ((hclosed.decided hd).mp hin').symm

end Own

/-- How a pass from further out stands to one that starts at an inner parenthesis. The parentheses and
the substitutions around are those that were open before, and the counts of braces differ by what was
open then, less the braces that closed it. -/
structure Inside (others outside before : List Nat) (own ahead : Lookahead) (starts : List Nat) :
    Prop where
  openParens : ahead.openParens = own.openParens ++ others
  closed : ahead.closed = own.closed
  mode : ahead.mode = own.mode
  ordered : own.Ordered
  counts : ∃ shift inner, ahead.braces = own.braces + shift ∧
    ahead.substitutions = own.substitutions.map (· + shift) ++ outside ∧
    starts = inner ++ before ∧ inner.length = own.substitutions.length ∧
    ∀ count ∈ outside.head?, count ≤ shift

section Passes

variable {paren : Nat} {others outside before starts : List Nat} {own ahead : Lookahead} {token : Token}

/-- A substitution of the inner pass ends for both passes; if one from around it ended, the inner
parenthesis would have been opened in it. -/
theorem Inside.endsSubstitution (h : Inside others outside before own ahead starts)
    (ho : Opened paren own) (hb : ∀ count ∈ outside.head?, ∃ start ∈ before.head?, start ≤ paren)
    (hn : ahead.endsNested token starts = true) :
    ahead.endsSubstitution token = own.endsSubstitution token := by
  obtain ⟨shift, inner, hbraces, hsubs, hstarts, hlength, hshift⟩ := h.counts
  by_cases hk : token.kind = .closeBrace
  · cases hown : own.substitutions with
    | cons count counts =>
      simp only [Lookahead.endsSubstitution, hsubs, hown, hbraces, List.map_cons, List.cons_append,
        List.head?_cons]
      congr 1
      simp
    | nil =>
      obtain rfl : inner = [] := List.length_eq_zero_iff.mp (by rw [hlength, hown]; rfl)
      have hno : own.endsSubstitution token = false := by
        simp [Lookahead.endsSubstitution, hown]
      rw [hno]
      by_contra hends
      rw [Bool.not_eq_false] at hends
      have hhead : outside.head? = some ahead.braces := by
        simpa [Lookahead.endsSubstitution, hk, hsubs, hown] using hends
      obtain ⟨start, hstart, hle⟩ := hb _ hhead
      have hall : ∀ other ∈ ahead.openParens, other < start := by
        intro other hin
        have hstart' : before.head? = some start := hstart
        have hn' := hn
        simp only [endsNested, hends, hstarts, List.nil_append, hstart', Bool.not_true,
          Bool.false_or, Option.all_some, List.all_eq_true, decide_eq_true_eq] at hn'
        exact hn' other hin
      have hlt := hall paren (by rw [h.openParens]; exact List.mem_append_left _ ho.mem)
      omega
  · have hk' : (token.kind == .closeBrace) = false := beq_eq_false_iff_ne.mpr hk
    simp [Lookahead.endsSubstitution, hk']

theorem followStarts_of_ne (hb : token.kind ≠ .closeBrace) (hc : token.kind ≠ .templateChunk) :
    ahead.followStarts token starts = starts := by
  have hb' : (token.kind == .closeBrace) = false := beq_eq_false_iff_ne.mpr hb
  have hc' : (token.kind == .templateChunk) = false := beq_eq_false_iff_ne.mpr hc
  simp [followStarts, Lookahead.endsSubstitution, hb', hc']

theorem endsSubstitution_iff (hk : token.kind = .closeBrace) :
    ahead.endsSubstitution token = true ↔ ahead.substitutions.head? = some ahead.braces := by
  simp [Lookahead.endsSubstitution, hk]

/-- A closing brace ends a substitution in both passes, or it lowers the counts of both; the inner
pass may have no brace left to count. -/
theorem Inside.closeBrace (h : Inside others outside before own ahead starts)
    (hk : token.kind = .closeBrace) (hends : ahead.endsSubstitution token = own.endsSubstitution token) :
    Inside others outside before (own.follow token) (ahead.follow token)
      (ahead.followStarts token starts) := by
  have hordered := h.ordered.follow token
  obtain ⟨hparens, hclosed, hmode, hown, shift, inner, hbraces, hsubs, hstarts, hlength, hshift⟩ := h
  by_cases he : own.endsSubstitution token = true
  · have hhead := (endsSubstitution_iff hk).mp he
    have hhead' := (endsSubstitution_iff hk).mp (hends.trans he)
    simp only [Lookahead.follow, hk, hhead, hhead', if_true, followStarts, hends, he] at hordered ⊢
    refine ⟨hparens, hclosed, rfl, hordered, shift, inner.tail, hbraces, ?_, ?_, ?_, hshift⟩
    · cases hsub : own.substitutions with
      | nil =>
        rw [hsub] at hhead
        cases hhead
      | cons count counts => simp [hsubs, hsub]
    · cases hinner : inner with
      | nil =>
        have hnil : own.substitutions = [] := by
          apply List.length_eq_zero_iff.mp
          rw [← hlength, hinner]
          rfl
        rw [hnil] at hhead
        cases hhead
      | cons start inner => simp [hstarts, hinner]
    · simp [hlength]
  · have hhead := mt (endsSubstitution_iff hk).mpr he
    have hhead' := mt (endsSubstitution_iff hk).mpr (by rw [hends]; exact he)
    have hstill : ahead.followStarts token starts = starts := by
      have hc : (token.kind == .templateChunk) = false := by rw [hk]; rfl
      simp [followStarts, hends, he, hc]
    simp only [Lookahead.follow, hk, if_neg hhead, if_neg hhead'] at hordered ⊢
    rw [hstill]
    refine ⟨hparens, hclosed, hmode, hordered, ?_⟩
    by_cases hzero : own.braces = 0
    -- no brace is left in the inner pass, so no substitution of its own is open either
    · have hnil : own.substitutions = [] := by
        cases hsub : own.substitutions with
        | nil => rfl
        | cons count counts =>
          have hle := hown.le (hsub ▸ List.mem_cons_self)
          rw [hsub, hzero] at hhead
          exact absurd (congrArg some (by omega : count = 0)) hhead
      refine ⟨shift - 1, inner, ?_, ?_, hstarts, hlength, fun count hcount => ?_⟩
      · dsimp only
        omega
      · simpa [hnil] using hsubs
      · have hle := hshift count hcount
        have hne : count ≠ ahead.braces := by
          rintro rfl
          apply hhead'
          rw [hsubs, hnil]
          exact hcount
        omega
    · exact ⟨shift, inner, by dsimp only; omega, hsubs, hstarts, hlength, hshift⟩

/-- The two passes stay so through a token. -/
theorem Inside.follow (h : Inside others outside before own ahead starts) (ho : Opened paren own)
    (hb : ∀ count ∈ outside.head?, ∃ start ∈ before.head?, start ≤ paren)
    (hn : (ahead.decideClosed token).endsNested token starts = true) :
    Inside others outside before ((own.decideClosed token).follow token)
      ((ahead.decideClosed token).follow token)
      ((ahead.decideClosed token).followStarts token starts) := by
  have hcleared : Inside others outside before (own.decideClosed token) (ahead.decideClosed token)
      starts := ⟨h.openParens, rfl, rfl, h.ordered, h.counts⟩
  have hopened : Opened paren (own.decideClosed token) := ⟨nofun, ho.2⟩
  have hends := hcleared.endsSubstitution hopened hb hn
  generalize own.decideClosed token = own at hcleared hopened hends ⊢
  generalize ahead.decideClosed token = ahead at hcleared hends ⊢
  by_cases hk : token.kind = .closeBrace
  · exact hcleared.closeBrace hk hends
  have hordered := hcleared.ordered.follow token
  obtain ⟨hparens, hclosed, hmode, -, shift, inner, hbraces, hsubs, hstarts, hlength, hshift⟩ :=
    hcleared
  by_cases hc : token.kind = .templateChunk
  · have hno : ahead.endsSubstitution token = false := by
      simp [Lookahead.endsSubstitution, hc]
    by_cases hopens : opensSubstitution token.raw = true
    · simp only [Lookahead.follow, hc, followStarts, hno, hopens, beq_self_eq_true, Bool.and_self,
        if_true, Bool.false_eq_true, if_false] at hordered ⊢
      refine ⟨hparens, hclosed, hmode, hordered, shift, token.start :: inner, hbraces, ?_, ?_, ?_,
        hshift⟩
      · simp [hsubs, hbraces]
      · simp [hstarts]
      · simp [hlength]
    · simp only [Lookahead.follow, hc, followStarts, hno, hopens, Bool.and_false,
        Bool.false_eq_true, if_false] at hordered ⊢
      exact ⟨hparens, hclosed, hmode, hordered, shift, inner, hbraces, hsubs, hstarts, hlength, hshift⟩
  · rw [followStarts_of_ne hk hc]
    unfold Lookahead.follow at hordered ⊢
    split at hordered
    · refine ⟨?_, hclosed, hmode, hordered, shift, inner, hbraces, hsubs, hstarts, hlength, hshift⟩
      simp [hparens]
    · -- the inner pass has a parenthesis to close, and it is the one that the outer pass closes
      obtain ⟨-, newer, hnewer, -⟩ := hopened
      have hne : own.openParens ≠ [] := by simp [hnewer]
      refine ⟨?_, ?_, hmode, hordered, shift, inner, hbraces, hsubs, hstarts, hlength, hshift⟩
      · simp only [hparens]
        exact List.tail_append_of_ne_nil hne
      · simp only [hparens]
        exact List.head?_append_of_ne_nil _ hne
    · refine ⟨hparens, hclosed, hmode, hordered, shift, inner, ?_, hsubs, hstarts, hlength, hshift⟩
      dsimp only
      omega
    · contradiction
    · exact ⟨hparens, hclosed, rfl, hordered, shift, inner, hbraces, hsubs, hstarts, hlength, hshift⟩
    · contradiction
    · exact ⟨hparens, hclosed, hmode, hordered, shift, inner, hbraces, hsubs, hstarts, hlength, hshift⟩

/-- The token behind the parenthesis that closes it decides it in both passes. -/
theorem Inside.answer_closed (rounds : Nat) {lexer : Lexer}
    (h : Inside others outside before own ahead starts) (hc : JustClosed paren own)
    (hothers : paren ∉ others) (hp : paren < lexer.cursor.offset) {answer : Bool}
    (hin : (paren, answer) ∈ (scan rounds ahead lexer).answers) :
    (paren, answer) ∈ ahead.decided ∨ (paren, answer) ∈ (scan rounds own lexer).answers := by
  have hclosed : ahead.closed = some paren := h.closed.trans hc.1
  have hopen : ahead.openParens = others := by rw [h.openParens, hc.2, List.nil_append]
  have hundecided (hin : (paren, answer) ∈ ahead.answers) :
      (paren, answer) ∈ ahead.decided ∨ (paren, answer) ∈ own.answers := by
    rcases (mem_answers ahead).mp hin with ⟨hanswer, -⟩ | hin
    · exact .inr ((mem_answers own).mpr (.inl ⟨hanswer, .inl hc.1⟩))
    · exact .inl hin
  cases rounds with
  | zero => exact hundecided hin
  | succ rounds =>
    rw [scan, ← h.mode]
    rw [scan] at hin
    dsimp only at hin ⊢
    cases ht : (lexer.next ahead.mode).current with
    | none =>
      rw [ht] at hin
      exact hundecided hin
    | some token =>
      rw [ht] at hin
      dsimp only at hin ⊢
      obtain ⟨hbefore, hbehind⟩ := Lexer.next_offsets ht
      have hno : paren ∉ ahead.openParens := by rwa [hopen]
      have hdecided : (paren, answer) ∈ (ahead.decideClosed token).decided := by
        split at hin
        · exact (settled_decideClosed hno).decided (known_of_answers hin)
        · rw [← decided_follow _ token]
          exact decided_of_answers rounds (settled_follow hno (by omega)) (by omega) hin
      -- the inner pass ends with this token
      have hend : (own.decideClosed token).openParens.isEmpty = true := List.isEmpty_iff.mpr hc.2
      rw [if_pos hend]
      rcases (mem_decideClosed ahead token).mp hdecided with ⟨-, hanswer⟩ | hin
      · exact .inr ((mem_answers _).mpr (.inr ((mem_decideClosed own token).mpr
          (.inl ⟨hc.1, hanswer⟩))))
      · exact .inl hin

/-- What a pass from further out finds out about an inner parenthesis, a pass from there does, too, as
long as no substitution around ends before the parenthesis is closed. -/
theorem Inside.answer (rounds : Nat) {lexer : Lexer} (h : Inside others outside before own ahead starts)
    (ho : Opened paren own) (hb : ∀ count ∈ outside.head?, ∃ start ∈ before.head?, start ≤ paren)
    (hn : nested rounds ahead starts lexer = true) (hothers : paren ∉ others)
    (hp : paren < lexer.cursor.offset) {answer : Bool}
    (hin : (paren, answer) ∈ (scan rounds ahead lexer).answers) :
    (paren, answer) ∈ ahead.decided ∨ (paren, answer) ∈ (scan rounds own lexer).answers := by
  induction rounds generalizing own ahead starts lexer with
  | zero =>
    rcases (mem_answers ahead).mp hin with ⟨hanswer, -⟩ | hin
    · exact .inr ((mem_answers own).mpr (.inl ⟨hanswer, .inr ho.mem⟩))
    · exact .inl hin
  | succ rounds ih =>
    rw [scan, ← h.mode]
    rw [scan] at hin
    rw [nested] at hn
    dsimp only at hin hn ⊢
    cases ht : (lexer.next ahead.mode).current with
    | none =>
      rw [ht] at hin
      rcases (mem_answers ahead).mp hin with ⟨hanswer, -⟩ | hin
      · exact .inr ((mem_answers own).mpr (.inl ⟨hanswer, .inr ho.mem⟩))
      · exact .inl hin
    | some token =>
      rw [ht] at hin hn
      dsimp only at hin hn ⊢
      obtain ⟨hbefore, hbehind⟩ := Lexer.next_offsets ht
      -- the parenthesis is open in both passes, so both go on
      have hown : (own.decideClosed token).openParens.isEmpty = false :=
        List.isEmpty_eq_false_iff.mpr (List.ne_nil_of_mem ho.mem)
      have hmem : paren ∈ ahead.openParens := by
        rw [h.openParens]
        exact List.mem_append_left others ho.mem
      have hahead : (ahead.decideClosed token).openParens.isEmpty = false :=
        List.isEmpty_eq_false_iff.mpr (List.ne_nil_of_mem hmem)
      rw [hown, if_neg Bool.false_ne_true]
      rw [hahead, if_neg Bool.false_ne_true] at hin
      rw [hahead, Bool.false_or, Bool.and_eq_true] at hn
      have hstep := h.follow ho hb hn.1
      have hlater : (paren, answer) ∈ ((ahead.decideClosed token).follow token).decided ∨
          (paren, answer) ∈ (scan rounds ((own.decideClosed token).follow token)
            (lexer.next ahead.mode)).answers := by
        rcases ho.follow (by omega : paren < token.start) with hopened | hclosed
        · exact ih hstep hopened hn.2 (by omega) hin
        · exact hstep.answer_closed rounds hclosed hothers (by omega) hin
      refine hlater.imp_left fun hdecided => ?_
      rw [decided_follow] at hdecided
      rcases (mem_decideClosed ahead token).mp hdecided with ⟨hclosed, -⟩ | hin
      · exact absurd (h.closed.symm.trans hclosed) ho.1
      · exact hin

/-- A parenthesis that has just been opened is open in the pass that starts from it, and in the pass
that came to it. -/
theorem inside_ofParen (hk : token.kind = .openParen) (hordered : ahead.Ordered) :
    Inside ahead.openParens ahead.substitutions starts (.ofParen token.start [])
      ((ahead.decideClosed token).follow token) starts := by
  have hfollow : (ahead.decideClosed token).follow token =
      { ahead.decideClosed token with openParens := token.start :: ahead.openParens } := by
    rw [Lookahead.follow, hk]
    rfl
  rw [hfollow]
  refine ⟨rfl, rfl, rfl, List.pairwise_singleton _ _, ahead.braces, [], ?_, rfl, rfl, rfl, ?_⟩
  · exact (Nat.zero_add _).symm
  · intro count hcount
    exact hordered.le (List.mem_of_mem_head? hcount)

end Passes

theorem opened_ofParen (paren : Nat) (decided : List (Nat × Bool)) :
    Opened paren (.ofParen paren decided) :=
  ⟨nofun, [], rfl, nofun⟩

/-- The answer about the parenthesis at an offset is that of a pass which starts there. -/
def Fresh (source : List Char) (entry : Nat × Bool) : Prop :=
  ∀ (lexer : Lexer) (word : Token), lexer.Faithful → lexer.source = source →
    lexer.current = some word → word.kind = .openParen → word.start = entry.1 →
    lexer.afterOperand = false → ∀ rounds, lexer.cursor.rest.length < rounds →
    entry ∈ (scan rounds (.ofParen entry.1 []) lexer).answers

theorem fresh_of_mem {rounds : Nat} {lexer : Lexer} {word : Token} {answer : Bool}
    (hf : lexer.Faithful) (hc : lexer.current = some word) (hk : word.kind = .openParen)
    (ha : lexer.afterOperand = false) (he : lexer.cursor.rest.length < rounds)
    (hin : (word.start, answer) ∈ (scan rounds (.ofParen word.start []) lexer).answers) :
    Fresh lexer.source (word.start, answer) := by
  intro lexer' word' hf' hs hc' hk' hstart ha' rounds' he'
  have halike := hf.alike_at_paren hf' hs hc hc' hk hk' hstart ha ha'
  rw [halike.cursor] at he'
  rw [scan_alike halike, scan_enough hf he' he]
  exact hin

/-- The substitutions that are open started behind. -/
def Tracked (starts : List Nat) (ahead : Lookahead) (lexer : Lexer) : Prop :=
  starts.length = ahead.substitutions.length ∧ ∀ start ∈ starts, start < lexer.cursor.offset

theorem Tracked.follow {starts : List Nat} {ahead : Lookahead} {lexer : Lexer} {token : Token}
    (h : Tracked starts ahead lexer) (ht : (lexer.next ahead.mode).current = some token) :
    Tracked ((ahead.decideClosed token).followStarts token starts)
      ((ahead.decideClosed token).follow token) (lexer.next ahead.mode) := by
  obtain ⟨hlength, hbehind⟩ := h
  obtain ⟨hbefore, htoken⟩ := Lexer.next_offsets ht
  have hlater : ∀ start ∈ starts, start < (lexer.next ahead.mode).cursor.offset := by
    intro start hin
    have hlt := hbehind start hin
    omega
  have hlength' : starts.length = (ahead.decideClosed token).substitutions.length := hlength
  generalize ahead.decideClosed token = cleared at hlength'
  by_cases hk : token.kind = .closeBrace
  · have hc : (token.kind == .templateChunk) = false := by rw [hk]; rfl
    by_cases he : cleared.endsSubstitution token = true
    · have hhead := (endsSubstitution_iff hk).mp he
      simp only [Lookahead.follow, hk, hhead, if_true, followStarts, he]
      refine ⟨?_, fun start hin => hlater start (List.mem_of_mem_tail hin)⟩
      simp [hlength']
    · have hhead := mt (endsSubstitution_iff hk).mpr he
      simp only [Lookahead.follow, hk, if_neg hhead, followStarts, he]
      exact ⟨hlength', hlater⟩
  · by_cases hc : token.kind = .templateChunk
    · have hno : cleared.endsSubstitution token = false := by
        simp [Lookahead.endsSubstitution, hc]
      by_cases hopens : opensSubstitution token.raw = true
      · simp only [Lookahead.follow, hc, followStarts, hno, hopens, beq_self_eq_true, Bool.and_self,
          if_true, Bool.false_eq_true, if_false]
        refine ⟨congrArg Nat.succ hlength', fun start hin => ?_⟩
        rcases List.mem_cons.mp hin with rfl | hin
        · exact htoken
        · exact hlater start hin
      · simp only [Lookahead.follow, hc, followStarts, hno, hopens, Bool.and_false,
          Bool.false_eq_true, if_false]
        exact ⟨hlength', hlater⟩
    · rw [followStarts_of_ne hk hc]
      have hsame : (cleared.follow token).substitutions = cleared.substitutions := by
        unfold Lookahead.follow
        split <;> first | rfl | contradiction
      rw [← hsame] at hlength'
      exact ⟨hlength', hlater⟩

/-- The parenthesis that a token opens is decided as by a pass from there. -/
theorem fresh_of_token {source : List Char} {rounds : Nat} {ahead : Lookahead} {starts : List Nat}
    {lexer : Lexer} (h : Position.Underway source ⟨rounds + 1, ahead, lexer⟩)
    (hs : Tracked starts ahead lexer) {token : Token}
    (ht : (lexer.next ahead.mode).current = some token) (hk : token.kind = .openParen)
    (hn : nested rounds ((ahead.decideClosed token).follow token) starts (lexer.next ahead.mode) = true)
    {answer : Bool} (hin : (token.start, answer) ∈ (scan rounds
      ((ahead.decideClosed token).follow token) (lexer.next ahead.mode)).answers) :
    Known ahead (token.start, answer) ∨ Fresh source (token.start, answer) := by
  obtain ⟨hbefore, hbehind⟩ := Lexer.next_offsets ht
  have hstep := h.step ht
  have hstarts : ∀ count ∈ ahead.substitutions.head?, ∃ start ∈ starts.head?, start ≤ token.start := by
    intro count hcount
    cases starts with
    | nil =>
      have hnil : ahead.substitutions = [] := List.length_eq_zero_iff.mp hs.1.symm
      rw [hnil] at hcount
      cases hcount
    | cons start starts =>
      have hlt := hs.2 start List.mem_cons_self
      exact ⟨start, rfl, by omega⟩
  have hnew : token.start ∉ ahead.openParens := by
    intro hopen
    have hlt : token.start < lexer.cursor.offset := h.opened _ hopen
    omega
  have hinside : Inside ahead.openParens ahead.substitutions starts (.ofParen token.start [])
      ((ahead.decideClosed token).follow token) starts := inside_ofParen hk h.ordered
  rcases hinside.answer rounds (opened_ofParen _ _) hstarts hn hnew hbehind hin with hd | hfresh
  · rw [decided_follow] at hd
    exact .inl (Known.of_decideClosed (.inl hd))
  · right
    have hsource : (lexer.next ahead.mode).source = source := hstep.source
    rw [← hsource]
    exact fresh_of_mem hstep.faithful ht hk (Lexer.afterOperand_of_openParen ht hk) hstep.enough hfresh

/-- In a pass in which no substitution ends while a parenthesis opened in it is open, all answers are
those of passes that start at the parentheses themselves, but for those that were known before and
those about parentheses that were open or just closed at its start. -/
theorem answers_fresh {source : List Char} (rounds : Nat) {ahead : Lookahead} {starts : List Nat}
    {lexer : Lexer} (h : Position.Underway source ⟨rounds, ahead, lexer⟩)
    (hs : Tracked starts ahead lexer) (hn : nested rounds ahead starts lexer = true)
    {entry : Nat × Bool} (hin : entry ∈ (scan rounds ahead lexer).answers) :
    Known ahead entry ∨ Fresh source entry := by
  induction rounds generalizing ahead starts lexer with
  | zero => exact .inl (known_of_answers hin)
  | succ rounds ih =>
    rw [scan] at hin
    rw [nested] at hn
    dsimp only at hin hn
    cases ht : (lexer.next ahead.mode).current with
    | none =>
      rw [ht] at hin
      exact .inl (known_of_answers hin)
    | some token =>
      rw [ht] at hin hn
      dsimp only at hin hn
      split at hin
      · exact .inl (known_of_answers hin).of_decideClosed
      · rename_i hopen
        rw [Bool.eq_false_iff.mpr hopen, Bool.false_or, Bool.and_eq_true] at hn
        rcases ih (h.step ht) (hs.follow ht) hn.2 hin with hknown | hfresh
        · rcases hknown.of_follow with hknown | ⟨hparen, hk⟩
          · exact .inl hknown.of_decideClosed
          · obtain ⟨paren, answer⟩ := entry
            cases hparen
            have hstill : (ahead.decideClosed token).followStarts token starts = starts :=
              followStarts_of_ne (by rw [hk]; decide) (by rw [hk]; decide)
            rw [hstill] at hn
            exact fresh_of_token h hs ht hk hn.2 hin
        · exact .inr hfresh

end Lookahead

end ScriptTree
