import ScriptTree.Proofs.ArrowAnswers
import ScriptTree.Proofs.StreamRequests

/-!
How a pass ahead matches the parentheses of the tokens that it reads.

A pass moves the stream of tokens on and sets it back afterwards. Every parenthesis that it opens is
closed where the parentheses in between balance, and it is decided one token later. The answers are
compared here with the tokens of the pass as a list, in which only opening and closing parentheses
count.
-/

namespace ScriptTree

namespace Lookahead

/-! ### Parentheses in a list of tokens -/

section Tokens

/-- The parentheses among some tokens match each other. -/
inductive Balanced : List Token → Prop
  | nil : Balanced []
  | other {token : Token} {tokens : List Token} :
    token.kind ≠ .openParen → token.kind ≠ .closeParen → Balanced tokens →
    Balanced (token :: tokens)
  | parens {opening closing : Token} {inner behind : List Token} :
    opening.kind = .openParen → closing.kind = .closeParen → Balanced inner → Balanced behind →
    Balanced (opening :: (inner ++ closing :: behind))

/-- The parenthesis in front of some tokens is closed by one of them, which leaves others behind it. -/
def ClosesBefore (tokens behind : List Token) : Prop :=
  ∃ inner closing, tokens = inner ++ closing :: behind ∧ Balanced inner ∧ closing.kind = .closeParen

/-- The parenthesis in front of some tokens is closed among them, and the next token is an arrow. -/
def ClosesBeforeArrow (tokens : List Token) : Prop :=
  ∃ arrow behind, ClosesBefore tokens (arrow :: behind) ∧ arrow.kind = .arrow

/-- The tokens behind the parenthesis that closes one more than `depth` open ones. -/
def afterClosing : Nat → List Token → Option (List Token)
  | _, [] => none
  | depth, token :: tokens =>
    match token.kind with
    | .openParen => afterClosing (depth + 1) tokens
    | .closeParen =>
      match depth with
      | 0 => some tokens
      | depth + 1 => afterClosing depth tokens
    | _ => afterClosing depth tokens

/-- Whether an arrow is the next token behind the parenthesis that closes one more than `depth` open
ones. -/
def arrowAfter (depth : Nat) (tokens : List Token) : Bool :=
  (afterClosing depth tokens).any fun behind => behind.head?.any fun token => token.kind == .arrow

variable {token : Token} {tokens inner behind : List Token} {depth : Nat}

section Steps

attribute [local simp] afterClosing

theorem afterClosing_open (h : token.kind = .openParen) (depth : Nat) (tokens : List Token) :
    afterClosing depth (token :: tokens) = afterClosing (depth + 1) tokens := by
  simp [h]

theorem afterClosing_close_zero (h : token.kind = .closeParen) (tokens : List Token) :
    afterClosing 0 (token :: tokens) = some tokens := by
  simp [h]

theorem afterClosing_close_succ (h : token.kind = .closeParen) (depth : Nat) (tokens : List Token) :
    afterClosing (depth + 1) (token :: tokens) = afterClosing depth tokens := by
  simp [h]

theorem afterClosing_other (ho : token.kind ≠ .openParen) (hc : token.kind ≠ .closeParen)
    (depth : Nat) (tokens : List Token) :
    afterClosing depth (token :: tokens) = afterClosing depth tokens := by
  conv_lhs => unfold afterClosing
  split
  · exact absurd ‹_› ho
  · exact absurd ‹_› hc
  · rfl

end Steps

/-- Balanced tokens are passed over. -/
theorem afterClosing_append (h : Balanced inner) (depth : Nat) (behind : List Token) :
    afterClosing depth (inner ++ behind) = afterClosing depth behind := by
  induction h generalizing depth behind with
  | nil => rfl
  | other ho hc _ ih => rw [List.cons_append, afterClosing_other ho hc, ih]
  | @parens _ closing inner others hopen hclose _ _ ihinner ihothers =>
    calc afterClosing depth (_ :: (inner ++ closing :: others) ++ behind)
        = afterClosing (depth + 1) (inner ++ closing :: (others ++ behind)) := by
          rw [List.cons_append, afterClosing_open hopen, List.append_assoc, List.cons_append]
      _ = afterClosing (depth + 1) (closing :: (others ++ behind)) := ihinner _ _
      _ = afterClosing depth (others ++ behind) := afterClosing_close_succ hclose _ _
      _ = afterClosing depth behind := ihothers _ _

theorem ClosesBefore.of_afterClosing (h : afterClosing depth tokens = some behind) :
    ∃ behind', ClosesBefore tokens behind' ∧ behind'.length < tokens.length ∧
      (depth = 0 → behind' = behind) ∧
        ∀ outer, depth = outer + 1 → afterClosing outer behind' = some behind := by
  -- on the length, since behind an inner parenthesis the search goes on in what it left
  induction hn : tokens.length using Nat.strong_induction_on generalizing tokens depth with
  | _ n ih =>
    cases tokens with
    | nil => simp [afterClosing] at h
    | cons token tokens =>
      rw [List.length_cons] at hn
      by_cases hopen : token.kind = .openParen
      · rw [afterClosing_open hopen] at h
        obtain ⟨between, ⟨inner, closing, ht, hinner, hclose⟩, hshort, -, hnext⟩ :=
          ih tokens.length (by omega) h rfl
        obtain ⟨behind', ⟨others, last, hb, hothers, hlast⟩, hless, hrest⟩ :=
          ih between.length (by omega) (hnext depth rfl) rfl
        refine ⟨behind', ⟨token :: (inner ++ closing :: others), last, ?_,
          .parens hopen hclose hinner hothers, hlast⟩, by omega, hrest⟩
        rw [ht, hb]
        simp
      · by_cases hclose : token.kind = .closeParen
        · refine ⟨tokens, ⟨[], token, rfl, .nil, hclose⟩, by omega, ?_, ?_⟩
          · rintro rfl
            rw [afterClosing_close_zero hclose] at h
            exact Option.some.inj h
          · rintro outer rfl
            rwa [afterClosing_close_succ hclose] at h
        · rw [afterClosing_other hopen hclose] at h
          obtain ⟨behind', ⟨inner, closing, ht, hinner, hlast⟩, hshort, hrest⟩ :=
            ih tokens.length (by omega) h rfl
          exact ⟨behind', ⟨token :: inner, closing, by rw [ht, List.cons_append],
            .other hopen hclose hinner, hlast⟩, by omega, hrest⟩

theorem afterClosing_zero_iff : afterClosing 0 tokens = some behind ↔ ClosesBefore tokens behind := by
  constructor
  · intro h
    obtain ⟨behind', hcloses, -, heq, -⟩ := ClosesBefore.of_afterClosing h
    exact heq rfl ▸ hcloses
  · rintro ⟨inner, closing, rfl, hinner, hclose⟩
    rw [afterClosing_append hinner, afterClosing_close_zero hclose]

theorem arrowAfter_zero_iff : arrowAfter 0 tokens = true ↔ ClosesBeforeArrow tokens := by
  unfold arrowAfter ClosesBeforeArrow
  simp only [← afterClosing_zero_iff]
  rcases afterClosing 0 tokens with _ | (_ | ⟨arrow, behind⟩) <;> simp

instance (tokens : List Token) : Decidable (ClosesBeforeArrow tokens) :=
  decidable_of_iff (arrowAfter 0 tokens = true) arrowAfter_zero_iff

theorem arrowAfter_zero (tokens : List Token) :
    arrowAfter 0 tokens = decide (ClosesBeforeArrow tokens) := by
  rw [Bool.eq_iff_iff, arrowAfter_zero_iff, decide_eq_true_iff]

end Tokens

/-! ### The tokens of a pass -/

section Passes

/-- A pass that has come to its end, with the tokens that it read, what it found and the stream that it
leaves. It ends where no token follows, or at the token behind the one that closes the first
parenthesis. -/
inductive Pass : Lookahead → Lexer → List Token → Lookahead → Lexer → Prop
  | ended {ahead : Lookahead} {lexer : Lexer} : (lexer.next ahead.mode).current = none →
    Pass ahead lexer [] ahead (lexer.next ahead.mode)
  | decided {ahead : Lookahead} {lexer : Lexer} {token : Token} :
    (lexer.next ahead.mode).current = some token → ahead.openParens = [] →
    Pass ahead lexer [token] (ahead.decideClosed token) (lexer.next ahead.mode)
  | goesOn {ahead last : Lookahead} {lexer moved : Lexer} {token : Token} {tokens : List Token} :
    (lexer.next ahead.mode).current = some token → ahead.openParens ≠ [] →
    Pass ((ahead.decideClosed token).follow token) (lexer.next ahead.mode) tokens last moved →
    Pass ahead lexer (token :: tokens) last moved

variable {ahead last : Lookahead} {lexer moved : Lexer} {token : Token} {tokens : List Token}
  {offset : Nat}

theorem lookup_decided_decideClosed (ahead : Lookahead) (token : Token) (offset : Nat) :
    (ahead.decideClosed token).decided.lookup offset =
      if ahead.closed = some offset then some (token.kind == .arrow)
      else ahead.decided.lookup offset := by
  unfold decideClosed
  dsimp only
  cases ahead.closed with
  | none => simp
  | some paren =>
    by_cases he : offset = paren
    · simp [he]
    · simp [List.lookup_cons, beq_false_of_ne he, Ne.symm he]

theorem follow_open (h : token.kind = .openParen) (ahead : Lookahead) :
    ((ahead.decideClosed token).follow token).openParens = token.start :: ahead.openParens ∧
      ((ahead.decideClosed token).follow token).closed = none := by
  rw [follow, h]
  exact ⟨rfl, rfl⟩

theorem follow_close (h : token.kind = .closeParen) (ahead : Lookahead) :
    ((ahead.decideClosed token).follow token).openParens = ahead.openParens.tail ∧
      ((ahead.decideClosed token).follow token).closed = ahead.openParens.head? := by
  rw [follow, h]
  exact ⟨rfl, rfl⟩

theorem follow_other (ho : token.kind ≠ .openParen) (hc : token.kind ≠ .closeParen)
    (ahead : Lookahead) :
    ((ahead.decideClosed token).follow token).openParens = ahead.openParens ∧
      ((ahead.decideClosed token).follow token).closed = none := by
  unfold follow
  split
  · exact absurd ‹_› ho
  · exact absurd ‹_› hc
  · exact ⟨rfl, rfl⟩
  · split <;> exact ⟨rfl, rfl⟩
  · exact ⟨rfl, rfl⟩
  · split <;> exact ⟨rfl, rfl⟩
  · exact ⟨rfl, rfl⟩

/-- A token leaves a parenthesis open, and the search for the closing one goes on in what follows; or
it closes the last one, and the search is over. -/
theorem afterClosing_follow {depth : Nat} (ho : ahead.openParens.length = depth + 1) (token : Token) :
    (∃ deeper, ((ahead.decideClosed token).follow token).openParens.length = deeper + 1 ∧
      ∀ tokens, afterClosing depth (token :: tokens) = afterClosing deeper tokens) ∨
    ((ahead.decideClosed token).follow token).openParens = [] ∧
      ∀ tokens, afterClosing depth (token :: tokens) = some tokens := by
  by_cases hopen : token.kind = .openParen
  · refine Or.inl ⟨depth + 1, ?_, afterClosing_open hopen depth⟩
    rw [(follow_open hopen ahead).1, List.length_cons, ho]
  · by_cases hclose : token.kind = .closeParen
    · have hlength : ((ahead.decideClosed token).follow token).openParens.length = depth := by
        rw [(follow_close hclose ahead).1, List.length_tail, ho, Nat.add_sub_cancel]
      cases depth with
      | zero => exact Or.inr ⟨List.length_eq_zero_iff.mp hlength, afterClosing_close_zero hclose⟩
      | succ depth => exact Or.inl ⟨depth, hlength, afterClosing_close_succ hclose depth⟩
    · refine Or.inl ⟨depth, ?_, afterClosing_other hopen hclose depth⟩
      rw [(follow_other hopen hclose ahead).1, ho]

namespace Pass

/-- The tokens of a pass start behind the place where it begins. -/
theorem le_start (h : Pass ahead lexer tokens last moved) :
    ∀ token ∈ tokens, lexer.cursor.offset ≤ token.start := by
  induction h with
  | ended => nofun
  | decided ht =>
    intro token hin
    rw [List.mem_singleton.mp hin]
    exact (Lexer.next_offsets ht).1
  | goesOn ht _ _ ih =>
    obtain ⟨hbefore, hbehind⟩ := Lexer.next_offsets ht
    intro token hin
    obtain rfl | hin := List.mem_cons.mp hin
    · exact hbefore
    · exact hbefore.trans (hbehind.le.trans (ih token hin))

/-- What is known about a parenthesis that is neither open nor just closed nor read stays. -/
theorem lookup_settled (h : Pass ahead lexer tokens last moved) (hs : Settled offset ahead)
    (hn : ∀ token ∈ tokens, token.kind = .openParen → token.start ≠ offset) :
    last.answers.lookup offset = ahead.decided.lookup offset := by
  induction h with
  | ended =>
    rw [lookup_answers, if_neg]
    exact not_or.mpr ⟨hs.2, hs.1⟩
  | decided =>
    rw [lookup_answers, if_neg, lookup_decided_decideClosed, if_neg hs.2]
    exact not_or.mpr ⟨nofun, hs.1⟩
  | @goesOn ahead _ _ _ token _ _ _ _ ih =>
    have hstep : Settled offset ((ahead.decideClosed token).follow token) := by
      constructor
      · intro hin
        obtain ⟨rfl, hk⟩ | hin := mem_follow _ token hin
        · exact hn token List.mem_cons_self hk rfl
        · exact hs.1 hin
      · intro hin
        obtain hin | ⟨hin, -⟩ := closed_follow _ token hin
        · cases hin
        · exact hs.1 hin
    rw [ih hstep fun other hin => hn other (List.mem_cons_of_mem _ hin), decided_follow,
      lookup_decided_decideClosed, if_neg hs.2]

/-- A parenthesis that was just closed is decided by the first token. -/
theorem lookup_closed (h : Pass ahead lexer tokens last moved) (hc : ahead.closed = some offset)
    (ho : offset ∉ ahead.openParens) (hp : offset < lexer.cursor.offset) :
    last.answers.lookup offset = some (tokens.head?.any fun token => token.kind == .arrow) := by
  cases h with
  | ended =>
    rw [lookup_answers, if_pos (Or.inl hc)]
    rfl
  | decided =>
    rw [lookup_answers, if_neg, lookup_decided_decideClosed, if_pos hc]
    · rfl
    · exact not_or.mpr ⟨nofun, ho⟩
  | @goesOn _ _ _ _ token _ ht _ hrest =>
    obtain ⟨hbefore, hbehind⟩ := Lexer.next_offsets ht
    rw [hrest.lookup_settled (settled_follow ho (by omega)), decided_follow,
      lookup_decided_decideClosed, if_pos hc]
    · rfl
    · intro other hin _
      have hle := hrest.le_start other hin
      omega

/-- An open parenthesis is decided by the token behind the one that closes it and those opened in it. -/
theorem lookup_open (h : Pass ahead lexer tokens last moved) {above below : List Nat}
    (ho : ahead.openParens = above ++ offset :: below) (hn : offset ∉ above ++ below)
    (hc : ahead.closed ≠ some offset) (hp : offset < lexer.cursor.offset) :
    last.answers.lookup offset = some (arrowAfter above.length tokens) := by
  induction h generalizing above with
  | ended =>
    rw [lookup_answers, if_pos (Or.inr (by rw [ho]; simp))]
    rfl
  | decided _ he => simp [ho] at he
  | @goesOn ahead last lexer moved token tokens ht _ hrest ih =>
    obtain ⟨hbefore, hbehind⟩ := Lexer.next_offsets ht
    by_cases hopen : token.kind = .openParen
    · -- a parenthesis inside, which has to be closed first
      obtain ⟨hparens, hclosed⟩ := follow_open hopen ahead
      have hnew : offset ∉ (token.start :: above) ++ below := by
        rw [List.cons_append, List.mem_cons, not_or]
        exact ⟨by omega, hn⟩
      rw [ih (by rw [hparens, ho, List.cons_append]) hnew (by rw [hclosed]; nofun) (by omega)]
      unfold arrowAfter
      rw [afterClosing_open hopen, List.length_cons]
    · by_cases hclose : token.kind = .closeParen
      · obtain ⟨hparens, hclosed⟩ := follow_close hclose ahead
        rw [ho] at hparens hclosed
        cases above with
        | nil =>
          -- this parenthesis is closed, and the next token decides it
          rw [hrest.lookup_closed hclosed (by rw [hparens]; exact hn) (by omega)]
          unfold arrowAfter
          rw [List.length_nil, afterClosing_close_zero hclose, Option.any_some]
        | cons inner above =>
          have hne : inner ≠ offset := by
            rintro rfl
            exact hn (by simp)
          rw [ih hparens (fun hin => hn (List.mem_cons_of_mem _ hin))
            (by rw [hclosed]; simpa using hne) (by omega)]
          unfold arrowAfter
          rw [List.length_cons, afterClosing_close_succ hclose]
      · obtain ⟨hparens, hclosed⟩ := follow_other hopen hclose ahead
        rw [ih (hparens.trans ho) hn (by rw [hclosed]; nofun) (by omega)]
        unfold arrowAfter
        rw [afterClosing_other hopen hclose]

/-- A pass ends for want of tokens, or one token behind the one that closes the first parenthesis. -/
theorem ends (h : Pass ahead lexer tokens last moved) {depth : Nat}
    (ho : ahead.openParens.length = depth + 1) :
    moved.current = none ∨ ∃ token, afterClosing depth tokens = some [token] := by
  induction h generalizing depth with
  | ended ht => exact Or.inl ht
  | decided _ he => simp [he] at ho
  | @goesOn ahead last lexer moved token tokens _ _ hrest ih =>
    obtain ⟨deeper, hlength, hnext⟩ | ⟨hnil, hnext⟩ := afterClosing_follow ho token
    · rw [hnext]
      exact ih hlength
    · -- nothing is open any more, so at most one token more is read
      rw [hnext]
      cases hrest with
      | ended ht => exact Or.inl ht
      | decided => exact Or.inr ⟨_, rfl⟩
      | goesOn _ hne => exact absurd hnil hne

/-- A parenthesis that a pass opens while the first one is open is decided by the token behind the one
that closes it. -/
theorem lookup_token (h : Pass ahead lexer tokens last moved) {depth : Nat}
    (hd : ahead.openParens.length = depth + 1)
    (ho : ∀ paren ∈ ahead.openParens, paren < lexer.cursor.offset) {front behind : List Token}
    {paren : Token} (ht : tokens = front ++ paren :: behind) (hk : paren.kind = .openParen)
    (hn : afterClosing depth front = none) :
    last.answers.lookup paren.start = some (arrowAfter 0 behind) := by
  induction h generalizing depth front with
  | ended => simp at ht
  | decided _ he => simp [he] at hd
  | @goesOn ahead last lexer moved token tokens hnext _ hrest ih =>
    obtain ⟨hbefore, hbehind⟩ := Lexer.next_offsets hnext
    cases front with
    | nil =>
      -- the token opens it, above what was open before
      obtain ⟨rfl, rfl⟩ := List.cons.inj ht
      obtain ⟨hparens, hclosed⟩ := follow_open hk ahead
      have hnew : token.start ∉ [] ++ ahead.openParens := by
        intro hin
        have hlt := ho _ hin
        omega
      exact hrest.lookup_open hparens hnew (by rw [hclosed]; nofun) hbehind
    | cons first front =>
      obtain ⟨rfl, htail⟩ := List.cons.inj ht
      have hbelow : ∀ other ∈ ((ahead.decideClosed token).follow token).openParens,
          other < (lexer.next ahead.mode).cursor.offset := by
        intro other hin
        obtain ⟨rfl, -⟩ | hin := mem_follow _ token hin
        · exact hbehind
        · have hlt := ho other hin
          omega
      obtain ⟨deeper, hlength, hsearch⟩ | ⟨-, hsearch⟩ := afterClosing_follow hd token
      · rw [hsearch] at hn
        exact ih hlength hbelow htail hn
      · rw [hsearch] at hn
        cases hn

end Pass

end Passes

end Lookahead

namespace ParserM

open Lookahead

/-! ### The pass with the stream of the parse -/

/-- A pass that moves the stream of the parse, and its tokens. -/
def passInPlace : Nat → Lookahead → ParserM (List Token × Lookahead)
  | 0, ahead => pure ([], ahead)
  | rounds + 1, ahead => do
    match ← nextTokenIn ahead.mode with
    | none => pure ([], ahead)
    | some token =>
      let ahead := ahead.decideClosed token
      if ahead.openParens.isEmpty then pure ([token], ahead)
      else
        let (tokens, last) ← passInPlace rounds (ahead.follow token)
        pure (token :: tokens, last)

/-- Whether the parenthesis at the current token starts an arrow function, found out with the stream
of the parse, which is set back to a bookmark afterwards. -/
def arrowAheadInPlace : ParserM Bool := do
  let parser ← get
  match parser.lexer.current with
  | none => pure false
  | some token =>
    match parser.arrowAnswers.lookup token.start with
    | some answer => pure answer
    | none =>
      let saved := parser.lexer.bookmark
      let (_, last) ← passInPlace parser.budget (.ofParen token.start parser.arrowAnswers)
      modifyLexer fun lexer => lexer.returnTo saved
      modify fun parser => { parser with arrowAnswers := last.answers }
      pure ((last.answers.lookup token.start).getD false)

/-- What one round of a pass does to the parse. -/
theorem run_passInPlace_succ (rounds : Nat) (ahead : Lookahead) (parser : Parser) :
    passInPlace (rounds + 1) ahead parser =
      match (parser.lexer.next ahead.mode).current with
      | none => .ok ([], ahead) { parser with lexer := parser.lexer.next ahead.mode }
      | some token =>
        if ahead.openParens.isEmpty then
          .ok ([token], ahead.decideClosed token)
            { parser with lexer := parser.lexer.next ahead.mode }
        else
          match passInPlace rounds ((ahead.decideClosed token).follow token)
              { parser with lexer := parser.lexer.next ahead.mode } with
          | .ok (tokens, last) after => .ok (token :: tokens, last) after
          | .error failure after => .error failure after := by
  simp only [passInPlace, nextTokenIn, run_bind, run_modifyLexer, run_current]
  cases (parser.lexer.next ahead.mode).current with
  | none => rfl
  | some token =>
    change (if ahead.openParens.isEmpty = true then _ else _ : ParserM _) _ = _
    dsimp only
    split
    · rfl
    · rw [run_bind]
      cases passInPlace rounds ((ahead.decideClosed token).follow token)
        { parser with lexer := parser.lexer.next ahead.mode } <;> rfl

/-- A pass finds out what it finds out on a stream of its own. It can be taken back, and with rounds
enough it comes to its end. -/
theorem run_passInPlace (rounds : Nat) (ahead : Lookahead) (parser : Parser) : ∃ tokens moved,
    passInPlace rounds ahead parser =
      .ok (tokens, scan rounds ahead parser.lexer) { parser with lexer := moved } ∧
    parser.lexer.source = moved.source ∧ parser.lexer.history <:+ moved.history ∧
    (parser.lexer.Faithful → parser.lexer.cursor.rest.length < rounds →
      Pass ahead parser.lexer tokens (scan rounds ahead parser.lexer) moved) := by
  induction rounds generalizing ahead parser with
  | zero =>
    refine ⟨[], parser.lexer, rfl, rfl, List.suffix_rfl, ?_⟩
    intro _ h
    exact absurd h (Nat.not_lt_zero _)
  | succ rounds ih =>
    have hsource := (parser.lexer.next_source ahead.mode).symm
    have hhistory := parser.lexer.history_suffix_next ahead.mode
    rw [run_passInPlace_succ, scan]
    dsimp only
    cases ht : (parser.lexer.next ahead.mode).current with
    | none => exact ⟨[], _, rfl, hsource, hhistory, fun _ _ => .ended ht⟩
    | some token =>
      dsimp only
      by_cases he : ahead.openParens.isEmpty = true
      · have he' : (ahead.decideClosed token).openParens.isEmpty = true := he
        rw [if_pos he, if_pos he']
        exact ⟨[token], _, rfl, hsource, hhistory, fun _ _ => .decided ht (List.isEmpty_iff.mp he)⟩
      · have he' : ¬ (ahead.decideClosed token).openParens.isEmpty = true := he
        obtain ⟨tokens, moved, hpass, hs, hh, hends⟩ :=
          ih ((ahead.decideClosed token).follow token)
            { parser with lexer := parser.lexer.next ahead.mode }
        rw [if_neg he, if_neg he', hpass]
        refine ⟨token :: tokens, moved, rfl, hsource.trans hs, hhistory.trans hh, ?_⟩
        intro hf hrounds
        refine .goesOn ht (fun hnil => he (List.isEmpty_iff.mpr hnil)) (hends (hf.next _) ?_)
        -- the token has used up a character
        have hshort := (hf.next ahead.mode).cursor_lt_left ht
        have hleft := parser.lexer.next_left_le ahead.mode
        change (parser.lexer.next ahead.mode).cursor.rest.length < rounds
        omega

/-- The pass with the stream of the parse leaves no trace in it. -/
theorem arrowAheadInPlace_eq : arrowAheadInPlace = arrowAhead := by
  funext parser
  rw [run_arrowAhead]
  simp only [arrowAheadInPlace, run_bind, run_get]
  cases hc : parser.lexer.current with
  | none => rfl
  | some word =>
    cases hl : parser.arrowAnswers.lookup word.start with
    | some answer =>
      simp only [hl]
      rfl
    | none =>
      obtain ⟨tokens, moved, hpass, hs, hh, -⟩ :=
        run_passInPlace parser.budget (.ofParen word.start parser.arrowAnswers) parser
      have hback := Lexer.returnTo_bookmark hs hh
      simp only [hl, run_bind, hpass, run_modifyLexer, hback, run_modify]
      rfl

end ParserM

namespace Parser

open ParserM Lookahead

/-- In every state that the steps of a parse lead to, a pass from a parenthesis without an answer reads
tokens until the parenthesis is closed and one token more, or until there are none. The stream of tokens
is set back to what it was, and the answers are what the parentheses among these tokens say: the
parenthesis itself, and every one opened before it was closed, is followed by an arrow behind the
parenthesis that balances it if and only if the answer says so. Other answers stay. -/
theorem arrowAhead_matches_parens (source : String) (options : ParserOptions) {parser : Parser}
    {word : Token} (hr : Reaches (ofText source options) parser)
    (hc : parser.lexer.current = some word) (hl : parser.arrowAnswers.lookup word.start = none) :
    ∃ tokens last moved answers,
      passInPlace parser.budget (.ofParen word.start parser.arrowAnswers) parser =
        .ok (tokens, last) { parser with lexer := moved } ∧
      (moved.current = none ∨ ∃ token, ClosesBefore tokens [token]) ∧
      moved.returnTo parser.lexer.bookmark = parser.lexer ∧
      arrowAhead parser = arrowAheadInPlace parser ∧
      arrowAheadInPlace parser =
        .ok (decide (ClosesBeforeArrow tokens)) { parser with arrowAnswers := answers } ∧
      answers.lookup word.start = some (decide (ClosesBeforeArrow tokens)) ∧
      (∀ front paren behind, tokens = front ++ paren :: behind → paren.kind = .openParen →
        (∀ left, ¬ ClosesBefore front left) →
          answers.lookup paren.start = some (decide (ClosesBeforeArrow behind))) ∧
      ∀ offset, offset ≠ word.start →
        (∀ token ∈ tokens, token.kind = .openParen → token.start ≠ offset) →
          answers.lookup offset = parser.arrowAnswers.lookup offset := by
  have hpoised := ((ofText_decided source options).reaches hr).toPoised
  have hbefore : word.start < parser.lexer.cursor.offset :=
    (hpoised.underway hc).opened word.start (List.mem_singleton_self _)
  obtain ⟨tokens, moved, hpass, hs, hh, hends⟩ :=
    run_passInPlace parser.budget (.ofParen word.start parser.arrowAnswers) parser
  have hp := hends hpoised.faithful hpoised.enough
  have hown := hp.lookup_open (List.nil_append [word.start]).symm List.not_mem_nil nofun hbefore
  rw [List.length_nil, arrowAfter_zero] at hown
  refine ⟨tokens, _, moved, _, hpass, ?_, Lexer.returnTo_bookmark hs hh,
    congrFun arrowAheadInPlace_eq.symm parser, ?_, hown, ?_, ?_⟩
  · refine (hp.ends rfl).imp_right ?_
    rintro ⟨token, ht⟩
    exact ⟨token, afterClosing_zero_iff.mp ht⟩
  · rw [arrowAheadInPlace_eq, run_arrowAhead, hc]
    dsimp only
    rw [hl]
    dsimp only
    rw [lookAhead, hown, Option.getD_some]
  · intro front paren behind ht hk hn
    have hnone : afterClosing 0 front = none := by
      cases hf : afterClosing 0 front with
      | none => rfl
      | some left => exact absurd (afterClosing_zero_iff.mp hf) (hn left)
    rw [hp.lookup_token rfl (fun paren hin => List.mem_singleton.mp hin ▸ hbefore) ht hk hnone,
      arrowAfter_zero]
  · intro offset hne hn
    exact hp.lookup_settled ⟨fun hin => hne (List.mem_singleton.mp hin), nofun⟩ hn

/-- A parenthesis inside another one, which starts an arrow function. -/
theorem arrowAhead_matches_parens_nested : ∃ parser word answers,
    Reaches (ofText "((b), c) => b" {}) parser ∧ parser.lexer.current = some word ∧
    parser.arrowAnswers.lookup word.start = none ∧
    arrowAhead parser = .ok true { parser with arrowAnswers := answers } ∧
    answers.lookup 0 = some true ∧ answers.lookup 1 = some false := by
  have hr := Relation.ReflTransGen.single (Step.next (ofText "((b), c) => b" {}) .default)
  have hc : ((Lexer.ofText "((b), c) => b".toList).next .default).current =
      some ⟨.openParen, "(", "(", 0, 1, none, false⟩ := by
    decide +kernel
  obtain ⟨tokens, last, moved, answers, hpass, -, -, hsame, hasked, hown, hinner, -⟩ :=
    arrowAhead_matches_parens _ {} hr hc rfl
  -- the first token of the pass is the inner parenthesis
  have hread : (tokens.head?.map fun token => (token.kind, token.start)) = some (.openParen, 1) ∧
      ClosesBeforeArrow tokens ∧ ¬ ClosesBeforeArrow tokens.tail := by
    have htokens : _ = tokens := congrArg (fun result => match result with
      | EStateM.Result.ok found _ => found.1
      | .error _ _ => []) hpass
    rw [← htokens]
    decide +kernel
  cases tokens with
  | nil => cases hread.1
  | cons paren behind =>
    obtain ⟨hparen, houter, (hnone : ¬ ClosesBeforeArrow behind)⟩ := hread
    obtain ⟨hk, hstart⟩ := Prod.mk.inj (Option.some.inj hparen)
    have hopen := hinner [] paren behind rfl hk fun left hcloses => by
      rw [← afterClosing_zero_iff] at hcloses
      cases hcloses
    rw [decide_eq_true houter] at hasked hown
    rw [hstart, decide_eq_false hnone] at hopen
    exact ⟨_, _, answers, hr, hc, rfl, hsame.trans hasked, hown, hopen⟩

end Parser

end ScriptTree
