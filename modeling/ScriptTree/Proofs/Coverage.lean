import Mathlib.Data.List.TakeWhile
import ScriptTree.Proofs.Matches

/-!
The tokens handed out and the trivia between them make up the text.

A stream never jumps: between two tokens there is nothing but white space and comments, and its
cursor stands behind the last token or behind trivia that follow it. The stream keeps this up however
its tokens are asked for, read again or taken back.
-/

namespace ScriptTree

theorem byteLength_append (front text : List Char) :
    byteLength (front ++ text) = byteLength front + byteLength text := by
  induction front with
  | nil => simp [byteLength]
  | cons c front ih => simp only [List.cons_append, byteLength, ih, Nat.add_assoc]

/-- White space and comments at the start of a text, and the text behind them. A block comment ends
with the first `*/` in it. A line comment goes on to the next line feed or to the end of the text. -/
inductive Trivia : List Char → List Char → Prop
  | none (text : List Char) : Trivia text text
  | space {c : Char} {text rest : List Char} :
    isSpace c = true → Trivia text rest → Trivia (c :: text) rest
  | blockComment {body text rest : List Char} :
    ¬['*', '/'] <:+: body → Trivia text rest →
    Trivia ('/' :: '*' :: (body ++ '*' :: '/' :: text)) rest
  | lineComment {body text rest : List Char} :
    '\n' ∉ body → (text = [] ∨ text.head? = some '\n') → Trivia text rest →
    Trivia ('/' :: '/' :: (body ++ text)) rest

namespace Trivia

variable {text between rest : List Char}

theorem trans (h : Trivia text between) (h' : Trivia between rest) : Trivia text rest := by
  induction h with
  | none => exact h'
  | space hc _ ih => exact .space hc (ih h')
  | blockComment hb _ ih => exact .blockComment hb (ih h')
  | lineComment hb he _ ih => exact .lineComment hb he (ih h')

theorem spaces {members : List Char} (h : ∀ c ∈ members, isSpace c = true) :
    Trivia (members ++ rest) rest := by
  induction members with
  | nil => exact .none rest
  | cons c members ih =>
    obtain ⟨hc, hm⟩ := List.forall_mem_cons.mp h
    exact .space hc (ih hm)

end Trivia

namespace Scan

/-- A block comment ends with its first `*/`. -/
theorem commentTail?_eq_some_iff {text tail : List Char} : commentTail? text = some tail ↔
    ∃ body rest, text = body ++ '*' :: '/' :: rest ∧ tail = body ++ ['*', '/'] ∧
      ¬['*', '/'] <:+: body := by
  constructor
  · intro h
    fun_induction commentTail? text generalizing tail with
    | case1 => cases h
    | case2 text =>
      cases h
      exact ⟨[], text, rfl, rfl, fun hi => by cases List.eq_nil_of_infix_nil hi⟩
    | case3 c text hne ih =>
      obtain ⟨tail, ht, rfl⟩ := Option.map_eq_some_iff.mp h
      obtain ⟨body, rest, rfl, rfl, hb⟩ := ih ht
      refine ⟨c :: body, rest, rfl, rfl, fun hi => ?_⟩
      rcases List.infix_cons_iff.mp hi with ⟨others, ho⟩ | hi
      -- the end of the comment would already stand at the start of the text
      · obtain ⟨rfl, rfl⟩ : '*' = c ∧ '/' :: others = body := by simpa using ho
        exact hne _ rfl rfl
      · exact hb hi
  · rintro ⟨body, rest, rfl, rfl, hb⟩
    induction body with
    | nil => rfl
    | cons c body ih =>
      have hne : ∀ behind, c = '*' → body ++ '*' :: '/' :: rest = '/' :: behind → False := by
        rintro behind rfl he
        cases body with
        | nil => cases he
        | cons d body =>
          cases (List.cons.inj he).1
          exact hb ⟨[], body, rfl⟩
      have ht := ih fun hi => hb (List.infix_cons hi)
      rw [List.cons_append, commentTail?.eq_3 _ _ hne, ht]
      rfl

/-- A line comment goes on to the line feed or to the end of the text. -/
theorem takeWhile_line_eq_iff {text body : List Char} : text.takeWhile (· != '\n') = body ↔
    ∃ rest, text = body ++ rest ∧ '\n' ∉ body ∧ (rest = [] ∨ rest.head? = some '\n') := by
  constructor
  · rintro rfl
    refine ⟨text.dropWhile (· != '\n'), List.takeWhile_append_dropWhile.symm, fun hc => ?_, ?_⟩
    · simpa using List.mem_takeWhile_imp hc
    · have hd := List.head?_dropWhile_not (· != '\n') text
      cases hr : text.dropWhile (· != '\n') with
      | nil => exact Or.inl rfl
      | cons c rest =>
        rw [hr] at hd
        simpa using hd
  · rintro ⟨rest, rfl, hb, hr⟩
    have hin : ∀ c ∈ body, (c != '\n') = true := by
      rintro c hc
      simpa using ne_of_mem_of_not_mem hc hb
    have hstop : rest.takeWhile (· != '\n') = [] := by
      rcases hr with rfl | hr
      · rfl
      · cases rest with
        | nil => rfl
        | cons c rest =>
          rw [List.head?_cons, Option.some.injEq] at hr
          simp [hr]
    rw [List.takeWhile_append_of_pos hin, hstop, List.append_nil]

end Scan

namespace Rule

/-- The rules for white space and comments. -/
theorem trivia_patterns : ∀ rule ∈ table, rule.kind.isTrivia = true →
    rule.pattern ∈ [.form .blockComment, .form .lineComment, .form .inlineSpace, .form .space] := by
  decide

/-- What is passed over as trivia is white space or a comment. -/
theorem trivia_of_first {mode : LexerMode} {afterOperand : Bool} {text rest : List Char} {rule : Rule}
    {lexeme : Lexeme} (h : first? mode afterOperand text = some (rule, lexeme))
    (ht : rule.kind.isTrivia = true) (hs : text = lexeme.raw ++ rest) : Trivia text rest := by
  obtain ⟨ha, hr⟩ := applies_of_first h
  have hin : rule ∈ table := by
    rcases hr with ⟨-, rfl⟩ | ⟨-, hin, -⟩
    · cases ht
    · exact hin
  -- a run of white space characters
  have hrun {isMember : Char → Bool} (hm : ∀ c, isMember c = true → isSpace c = true)
      (hl : Scan.run isMember text = some lexeme) : Trivia text rest := by
    have hall : ∀ c ∈ lexeme.raw, isSpace c = true := by
      intro c hc
      unfold Scan.run at hl
      dsimp only at hl
      split at hl
      · cases hl
      · cases hl
        simp only [Lexeme.raw, Lexeme.whole, List.nil_append, List.append_nil] at hc
        exact hm c (List.mem_takeWhile_imp hc)
    rw [hs]
    exact .spaces hall
  have hp := trivia_patterns rule hin ht
  simp only [List.mem_cons, List.not_mem_nil, or_false] at hp
  rcases hp with hp | hp | hp | hp <;> rw [hp] at ha
  · simp only [Pattern.apply, LexicalForm.match?, Scan.blockComment] at ha
    split at ha
    · obtain ⟨tail, htail, rfl⟩ := Option.map_eq_some_iff.mp ha
      obtain ⟨body, behind, rfl, rfl, hb⟩ := Scan.commentTail?_eq_some_iff.mp htail
      obtain rfl : behind = rest := by simpa [Lexeme.raw, Lexeme.whole] using hs
      exact .blockComment hb (.none behind)
    · cases ha
  · simp only [Pattern.apply, LexicalForm.match?, Scan.lineComment] at ha
    split at ha
    · rename_i inner
      cases ha
      obtain ⟨behind, hi, hb, hend⟩ := Scan.takeWhile_line_eq_iff.mp (rfl : inner.takeWhile _ = _)
      have hline := Trivia.lineComment hb hend (.none behind)
      rw [← hi] at hline
      have hrest : inner = inner.takeWhile (· != '\n') ++ rest := by
        simpa [Lexeme.raw, Lexeme.whole] using hs
      rw [List.append_cancel_left (hrest.symm.trans hi)]
      exact hline
    · cases ha
  · exact hrun (fun c hc => (Bool.and_eq_true_iff.mp hc).1) ha
  · exact hrun (fun c hc => hc) ha

end Rule

/-- The token that is handed out for a match. -/
def Token.ofLexeme (place : Cursor) (kind : TokenKind) (lexeme : Lexeme) (precedence : Option Nat)
    (newline : Bool) : Token :=
  { kind, value := String.ofList lexeme.value, raw := String.ofList lexeme.raw
    start := place.offset, stop := (place.advance lexeme.raw).offset, precedence
    afterNewline := newline }

/-- The tokens that can be found at a place, in one mode or another. Where line feeds count, a block
comment with a line feed in it is a token as well. -/
inductive Token.At (place : Cursor) : Token → Prop
  | plain {mode : LexerMode} {afterOperand newline : Bool} {rule : Rule} {lexeme : Lexeme} :
    Rule.first? mode afterOperand place.rest = some (rule, lexeme) → rule.kind.isTrivia = false →
    At place (.ofLexeme place rule.kind lexeme rule.precedence newline)
  | comment {mode : LexerMode} {afterOperand newline : Bool} {rule : Rule} {lexeme : Lexeme} :
    Rule.first? mode afterOperand place.rest = some (rule, lexeme) →
    Lexer.endsLine mode rule.kind lexeme.raw = true →
    At place (.ofLexeme place .semicolon (.whole lexeme.raw) none newline)

/-- A token is a piece of the text that is not empty, between its two offsets. -/
theorem Token.At.spans {place : Cursor} {token : Token} (h : token.At place) :
    token.start = place.offset ∧ token.stop = place.offset + byteLength token.raw.toList ∧
      token.raw.toList ≠ [] ∧ token.raw.toList <+: place.rest := by
  cases h with
  | plain hf _ =>
    refine ⟨rfl, ?_, ?_, ?_⟩ <;> simp only [ofLexeme, String.toList_ofList]
    · rfl
    · exact Rule.raw_ne_nil_of_first hf
    · exact Rule.first?_isPrefix hf
  | comment hf _ =>
    refine ⟨rfl, ?_, ?_, ?_⟩ <;> simp only [ofLexeme, String.toList_ofList]
    · rfl
    · simpa [Lexeme.raw, Lexeme.whole] using Rule.raw_ne_nil_of_first hf
    · simpa [Lexeme.raw, Lexeme.whole] using Rule.first?_isPrefix hf

/-- A pattern of one spelling matches nothing else. -/
theorem Pattern.apply_single {spelling : String} {text : List Char} {lexeme : Lexeme}
    (h : (Pattern.punctuators [spelling]).apply text = some lexeme) :
    lexeme = .whole spelling.toList ∧ ∃ rest, text = spelling.toList ++ rest := by
  obtain ⟨word, hw, rfl⟩ := Option.map_eq_some_iff.mp h
  obtain rfl := List.mem_singleton.mp (List.mem_of_find?_eq_some hw)
  have hs : (afterSpelling? word.toList text).isSome = true := by simpa using List.find?_some hw
  obtain ⟨rest, hr⟩ := Option.isSome_iff_exists.mp hs
  exact ⟨rfl, rest, eq_append_of_afterSpelling? hr⟩

namespace Rule

/-- Only one rule makes opening parentheses, and only one makes arrows. -/
theorem pattern_of_kind : ∀ rule ∈ table,
    (rule.kind = .openParen → rule.pattern = .punctuators ["("]) ∧
      (rule.kind = .arrow → rule.pattern = .punctuators ["=>"]) := by
  decide

end Rule

namespace Token.At

variable {place : Cursor} {token : Token}

/-- Where a token of a kind is found whose only rule has one spelling, the text starts with it. -/
theorem of_spelling {kind : TokenKind} {spelling : String} (h : token.At place)
    (hk : token.kind = kind) (hc : kind ≠ .semicolon) (ht : kind ≠ .templateChunk)
    (hp : ∀ rule ∈ Rule.table, rule.kind = kind → rule.pattern = .punctuators [spelling]) :
    (token.raw = spelling ∧ token.value = spelling) ∧ ∃ rest, place.rest = spelling.toList ++ rest := by
  cases h with
  | comment hf he => exact absurd hk.symm hc
  | @plain mode afterOperand newline rule lexeme hf _ =>
    obtain ⟨ha, hr⟩ := Rule.applies_of_first hf
    rcases hr with ⟨-, rfl⟩ | ⟨-, hin, -⟩
    · exact absurd hk.symm ht
    · rw [hp rule hin hk] at ha
      obtain ⟨rfl, hrest⟩ := Pattern.apply_single ha
      refine ⟨?_, hrest⟩
      simp [ofLexeme, Lexeme.raw, Lexeme.whole]

theorem of_openParen (h : token.At place) (hk : token.kind = .openParen) :
    token.raw = "(" ∧ ∃ rest, place.rest = '(' :: rest :=
  (h.of_spelling hk nofun nofun fun rule hin => (Rule.pattern_of_kind rule hin).1).imp_left And.left

theorem of_arrow (h : token.At place) (hk : token.kind = .arrow) :
    ∃ rest, place.rest = '=' :: '>' :: rest :=
  (h.of_spelling hk nofun nofun fun rule hin => (Rule.pattern_of_kind rule hin).2).2

end Token.At

/-- From one place to another there is nothing but trivia. -/
structure Cursor.Skips (place stop : Cursor) : Prop where
  trivia : Trivia place.rest stop.rest
  spans : ∃ gap, place.rest = gap ++ stop.rest ∧ stop.offset = place.offset + byteLength gap

namespace Cursor.Skips

variable {place between stop : Cursor}

theorem refl (place : Cursor) : place.Skips place := ⟨.none _, [], rfl, rfl⟩

theorem trans (h : place.Skips between) (h' : between.Skips stop) : place.Skips stop := by
  obtain ⟨gap, hg, ho⟩ := h.spans
  obtain ⟨gap', hg', ho'⟩ := h'.spans
  refine ⟨h.trivia.trans h'.trivia, gap ++ gap', ?_, ?_⟩
  · rw [hg, hg', List.append_assoc]
  · rw [ho', ho, byteLength_append, Nat.add_assoc]

theorem length_le (h : place.Skips stop) : stop.rest.length ≤ place.rest.length := by
  obtain ⟨gap, hg, -⟩ := h.spans
  rw [hg, List.length_append]
  omega

/-- A piece of trivia that a rule matches is passed over. -/
theorem of_first {mode : LexerMode} {afterOperand : Bool} {rule : Rule} {lexeme : Lexeme}
    (h : Rule.first? mode afterOperand place.rest = some (rule, lexeme))
    (ht : rule.kind.isTrivia = true) : place.Skips (place.advance lexeme.raw) := by
  obtain ⟨rest, hs⟩ := Rule.first?_isPrefix h
  have hd : (place.advance lexeme.raw).rest = rest := by rw [advance, ← hs, List.drop_left]
  refine ⟨?_, lexeme.raw, ?_, rfl⟩
  · rw [hd]
    exact Rule.trivia_of_first h ht hs.symm
  · rw [hd, hs]

end Cursor.Skips

namespace Lexer

/-- Where a search leads: over trivia to a token, to text that no rule matches or to the end. -/
def LeadsTo (place : Cursor) : Sighting → Prop
  | .token start kind lexeme precedence newline =>
    place.Skips start ∧ (Token.ofLexeme start kind lexeme precedence newline).At start
  | .stuck stop | .finished stop => place.Skips stop

theorem seek_leads (mode : LexerMode) (afterOperand : Bool) (fuel : Nat) (place : Cursor)
    (newline : Bool) : LeadsTo place (seek mode afterOperand fuel place newline) := by
  induction fuel generalizing place newline with
  | zero => exact .refl place
  | succ fuel ih =>
    rw [seek]
    split
    · exact .refl place
    · split
      · exact .refl place
      · rename_i rule lexeme hf
        split
        · rename_i ht
          split
          · rename_i he
            exact ⟨.refl place, .comment hf he⟩
          · -- one more piece of trivia is passed over before the search goes on
            have hskip := Cursor.Skips.of_first hf ht
            have hrest := ih (place.advance lexeme.raw) (newline || lexeme.raw.contains '\n')
            revert hrest
            cases seek mode afterOperand fuel (place.advance lexeme.raw)
                (newline || lexeme.raw.contains '\n') with
            | token => exact fun hrest => ⟨hskip.trans hrest.1, hrest.2⟩
            | stuck => exact fun hrest => hskip.trans hrest
            | finished => exact fun hrest => hskip.trans hrest
        · rename_i ht
          exact ⟨.refl place, .plain hf (by simpa using ht)⟩

/-- How the tokens handed out, newest first, and the trivia between them lead from the start of a
text to a place. -/
inductive Tiled (source : List Char) : List TokenRecord → List Token → Cursor → Prop
  | start : Tiled source [] [] (.ofText source)
  | trivia {history : List TokenRecord} {tokens : List Token} {place stop : Cursor} :
    Tiled source history tokens place → place.Skips stop → Tiled source history tokens stop
  | token {history : List TokenRecord} {tokens : List Token} {place : Cursor} {token : Token}
      {closesOperand : Bool} :
    Tiled source history tokens place → token.At place →
    Tiled source (⟨place, closesOperand⟩ :: history) (token :: tokens)
      (place.advance token.raw.toList)

namespace Tiled

variable {source : List Char} {history : List TokenRecord} {tokens : List Token} {place : Cursor}

/-- A place that tokens and trivia lead to is a place of the text. -/
theorem splits (h : Tiled source history tokens place) :
    ∃ front, source = front ++ place.rest ∧ place.offset = byteLength front := by
  induction h with
  | start => exact ⟨[], rfl, rfl⟩
  | trivia _ hskip ih =>
    obtain ⟨front, hs, ho⟩ := ih
    obtain ⟨gap, hg, ho'⟩ := hskip.spans
    refine ⟨front ++ gap, ?_, ?_⟩
    · rw [hs, hg, List.append_assoc]
    · rw [ho', ho, byteLength_append]
  | @token history tokens place token _ _ hat ih =>
    obtain ⟨front, hs, ho⟩ := ih
    obtain ⟨-, -, -, rest, hp⟩ := hat.spans
    refine ⟨front ++ token.raw.toList, ?_, ?_⟩
    · rw [hs, Cursor.advance, ← hp, List.drop_left, List.append_assoc]
    · rw [Cursor.advance, ho, byteLength_append]

/-- Taking back the last token leads to where it started. -/
theorem back {record : TokenRecord} (h : Tiled source (record :: history) tokens place) :
    ∃ others, Tiled source history others record.start := by
  generalize he : record :: history = records at h
  induction h with
  | start => cases he
  | trivia _ _ ih => exact ih he
  | token ht _ _ =>
    cases he
    exact ⟨_, ht⟩

/-- As long as no token is handed out, there are only trivia. -/
theorem skips_of_nil (h : Tiled source [] tokens place) : (Cursor.ofText source).Skips place := by
  generalize he : ([] : List TokenRecord) = records at h
  induction h with
  | start => exact .refl _
  | trivia _ hskip ih => exact (ih he).trans hskip
  | token => cases he

end Tiled

/-- A stream that is faithful to its text: its tokens and the trivia between them lead to its cursor,
the current token is the last of them, and it is exhausted only at the end. -/
structure Faithful (lexer : Lexer) : Prop where
  tiled : ∃ tokens, Tiled lexer.source lexer.history tokens lexer.cursor
  current : ∀ token, lexer.current = some token → ∃ place closesOperand history,
    lexer.history = ⟨place, closesOperand⟩ :: history ∧ token.At place ∧
      lexer.cursor = place.advance token.raw.toList
  ended : lexer.exhausted = true → lexer.current = none ∧ lexer.cursor.rest = []

theorem ofText_faithful (source : List Char) : (ofText source).Faithful where
  tiled := ⟨[], .start⟩
  current := nofun
  ended := nofun

/-- Going on to the next token needs no more than that the cursor is where it should be. -/
theorem next_faithful {lexer : Lexer} {tokens : List Token}
    (h : Tiled lexer.source lexer.history tokens lexer.cursor) (mode : LexerMode) :
    (lexer.next mode).Faithful := by
  have hlead := seek_leads mode lexer.afterOperand (lexer.cursor.rest.length + 1) lexer.cursor false
  unfold next
  cases hs : seek mode lexer.afterOperand (lexer.cursor.rest.length + 1) lexer.cursor false with
  | token start kind lexeme precedence newline =>
    rw [hs] at hlead
    obtain ⟨hskip, hat⟩ := hlead
    have hraw : start.advance (Token.ofLexeme start kind lexeme precedence newline).raw.toList =
        start.advance lexeme.raw := by rw [Token.ofLexeme, String.toList_ofList]
    have htiled : Tiled lexer.source
        (⟨start, tokenClosesOperand lexer.afterOperand kind lexeme newline⟩ :: lexer.history)
        (.ofLexeme start kind lexeme precedence newline :: tokens) (start.advance lexeme.raw) := by
      rw [← hraw]
      exact .token (h.trivia hskip) hat
    refine ⟨⟨_, htiled⟩, fun token ht => ?_, nofun⟩
    cases ht
    exact ⟨start, _, lexer.history, rfl, hat, hraw.symm⟩
  | stuck place =>
    rw [hs] at hlead
    exact ⟨⟨tokens, h.trivia hlead⟩, nofun, nofun⟩
  | finished place =>
    rw [hs] at hlead
    exact ⟨⟨tokens, h.trivia hlead⟩, nofun, fun _ =>
      ⟨rfl, rest_eq_nil_of_seek_finished (Nat.lt_succ_self _) hs⟩⟩

theorem Faithful.next {lexer : Lexer} (h : lexer.Faithful) (mode : LexerMode) :
    (lexer.next mode).Faithful := by
  obtain ⟨tokens, ht⟩ := h.tiled
  exact next_faithful ht mode

theorem Faithful.reread {lexer : Lexer} (h : lexer.Faithful) (mode : LexerMode) :
    (lexer.reread mode).Faithful := by
  unfold Lexer.reread
  split
  · rename_i last history _ hh
    obtain ⟨tokens, ht⟩ := h.tiled
    rw [hh] at ht
    obtain ⟨others, hback⟩ := ht.back
    exact @next_faithful { lexer with cursor := last.start, history } others hback mode
  · exact h.next mode

@[simp] theorem next_source (lexer : Lexer) (mode : LexerMode) :
    (lexer.next mode).source = lexer.source := by
  unfold next
  split <;> rfl

@[simp] theorem reread_source (lexer : Lexer) (mode : LexerMode) :
    (lexer.reread mode).source = lexer.source := by
  unfold reread
  split <;> rw [next_source]

/-- Going on by one token and back to a bookmark changes nothing. -/
theorem next_returnTo_bookmark (lexer : Lexer) (mode : LexerMode) :
    (lexer.next mode).returnTo lexer.bookmark = lexer := by
  unfold next
  split <;> simp [returnTo, bookmark, emit]

end Lexer

end ScriptTree
