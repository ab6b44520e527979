import ScriptTree.Proofs.SettledRules
import ScriptTree.Proofs.Standing
import ScriptTree.Proofs.Termination

/-!
The tokens of a text, and those of the text with a space or a comment put in.

In front of the place the same is found with the piece as without it, as long as no rule can tell. The
piece itself is passed over, and behind it all is the same, only further on by the length of the piece.
White space is passed over character by character, so it does not matter how it lies to the place.
-/

namespace ScriptTree

/-- Whether a character in front of a token is white space that is passed over. -/
def LexerMode.skips (mode : LexerMode) (c : Char) : Bool :=
  !mode.template && isSpace c && !(mode.significantNewline && c == '\n')

/-- A text in two parts, and a space or a comment that can be put between them. -/
structure Insertion where
  /-- The part in front of the place. -/
  front : List Char
  /-- What is put there. -/
  piece : List Char
  /-- The part behind the place. -/
  back : List Char
  /-- It is a space or a comment. -/
  filler : Filler piece

namespace Insertion

/-- The text without the piece. -/
def before (insertion : Insertion) : String := String.ofList (insertion.front ++ insertion.back)

/-- The text with the piece. -/
def after (insertion : Insertion) : String :=
  String.ofList (insertion.front ++ (insertion.piece ++ insertion.back))

/-- The offset at which the piece is put in. -/
def place (insertion : Insertion) : Nat := byteLength insertion.front

/-- Where an offset of the text is in the text with the piece. -/
def shift (insertion : Insertion) (offset : Nat) : Nat :=
  if offset < insertion.place then offset else offset + byteLength insertion.piece

/-- How a cursor in the text belongs to one in the text with the piece. At the place itself, it may
stand on either side of the piece. -/
inductive Belongs (insertion : Insertion) : Cursor → Cursor → Prop
  | ahead {offset : Nat} {mid : List Char} : offset + byteLength mid = insertion.place →
    Belongs insertion ⟨offset, mid ++ insertion.back⟩
      ⟨offset, mid ++ (insertion.piece ++ insertion.back)⟩
  | behind {offset : Nat} {rest : List Char} : insertion.place ≤ offset →
    Belongs insertion ⟨offset, rest⟩ ⟨offset + byteLength insertion.piece, rest⟩

/-- Two searches have come to the same. -/
inductive SameSight (insertion : Insertion) : Sighting → Sighting → Prop
  | token {start start' : Cursor} {kind : TokenKind} {lexeme : Lexeme} {precedence : Option Nat}
      {newline : Bool} : insertion.Belongs start start' →
    start'.offset = insertion.shift start.offset →
    insertion.Belongs (start.advance lexeme.raw) (start'.advance lexeme.raw) →
    SameSight insertion (.token start kind lexeme precedence newline)
      (.token start' kind lexeme precedence newline)
  | stuck {stop stop' : Cursor} : insertion.Belongs stop stop' →
    SameSight insertion (.stuck stop) (.stuck stop')
  | finished {stop stop' : Cursor} : insertion.Belongs stop stop' →
    SameSight insertion (.finished stop) (.finished stop')

/-- Whether template text begins at the place, or would with the piece. It takes in the piece. -/
def beginsTemplate (insertion : Insertion) : Bool :=
  insertion.back.isEmpty || (Scan.templateChunk insertion.back).isSome ||
    (Scan.templateChunk (insertion.piece ++ insertion.back)).isSome

/-- Whether a search from a piece of text in front of the place can tell that something has been put
there. -/
def seekTells (insertion : Insertion) (mode : LexerMode) (afterOperand : Bool) :
    Nat → List Char → Bool
  | 0, _ => false
  | _ + 1, [] => mode.template && insertion.beginsTemplate
  | fuel + 1, c :: mid =>
    if mode.skips c then seekTells insertion mode afterOperand fuel mid
    else firstTells (c :: mid) insertion.piece insertion.back (Rule.tried mode afterOperand) ||
      match Rule.first? mode afterOperand (c :: mid ++ insertion.back) with
      | some (rule, lexeme) =>
        rule.kind.isTrivia && !Lexer.endsLine mode rule.kind lexeme.raw &&
          seekTells insertion mode afterOperand fuel ((c :: mid).drop lexeme.raw.length)
      | none => false

/-- Whether reading the next token can tell. Behind the place nothing can. -/
def readTells (insertion : Insertion) (mode : LexerMode) (lexer : Lexer) : Bool :=
  let ahead := lexer.cursor.rest.length - insertion.back.length
  insertion.back.length ≤ lexer.cursor.rest.length &&
    insertion.seekTells mode lexer.afterOperand (ahead + 1) (lexer.cursor.rest.take ahead)

/-- Two records of tokens that belong together. -/
structure SameRecord (insertion : Insertion) (record record' : TokenRecord) : Prop where
  start : insertion.Belongs record.start record'.start
  closesOperand : record'.closesOperand = record.closesOperand

/-- How a stream over the text belongs to one over the text with the piece: the tokens are the same,
each at its place. -/
structure Follows (insertion : Insertion) (lexer lexer' : Lexer) : Prop where
  cursor : insertion.Belongs lexer.cursor lexer'.cursor
  current : (lexer.current = none ∧ lexer'.current = none) ∨
    ∃ word stop, lexer.current = some word ∧
      lexer'.current = some { word with start := insertion.shift word.start, stop }
  history : List.Forall₂ insertion.SameRecord lexer.history lexer'.history
  exhausted : lexer'.exhausted = lexer.exhausted

end Insertion

namespace Rule

/-- White space is read all at once. -/
theorem first?_of_skips {mode : LexerMode} {c : Char} (h : mode.skips c = true) (afterOperand : Bool)
    (text : List Char) : ∃ rule, rule.kind = .whitespace ∧
      first? mode afterOperand (c :: text) = some (rule, .whole (c :: text.takeWhile mode.skips)) := by
  simp only [LexerMode.skips, Bool.and_eq_true, Bool.not_eq_true'] at h
  obtain ⟨⟨htemplate, hspace⟩, hline⟩ := h
  have hnone (rule : Rule) (hr : rule.pattern.startsSpace = false) :
      (if rule.appliesIn mode afterOperand then rule.match? (c :: text) else none) = none := by
    rw [match?_eq_none text (canStart_of_isSpace hr hspace), ite_self]
  have hlooks : mode.looksFor .whitespace = true := by
    unfold LexerMode.looksFor
    cases mode.expected <;> rfl
  have hmatch (rule : Rule) {isMember : Char → Bool} (hp : rule.pattern.apply = Scan.run isMember)
      (hc : isMember c = true) :
      rule.match? (c :: text) = some (rule, .whole (c :: text.takeWhile isMember)) := by
    simp [match?, hp, Scan.run, hc, Lexeme.whole, Lexeme.raw]
  rw [first?, if_neg (by simp [htemplate]), ← findSome?_filter_eq hnone, table_startsSpace]
  cases hs : mode.significantNewline with
  | true =>
    have hc : (c == '\n') = false := by simpa [hs] using hline
    have hskips : mode.skips = fun d => isSpace d && d != '\n' := by
      funext d
      simp [LexerMode.skips, htemplate, hs, bne]
    have hno : Rule.match? { form .semicolon .lineFeed with newline := .significant } (c :: text) =
        none := match?_eq_none text hc
    have hyes : Rule.appliesIn { form .whitespace .inlineSpace with newline := .significant } mode
        afterOperand = true := by
      simp [appliesIn, form, hs, hlooks]
    refine ⟨{ form .whitespace .inlineSpace with newline := .significant }, rfl, ?_⟩
    rw [hskips]
    simp only [List.findSome?_cons, hno, hyes, ite_self, if_true]
    rw [hmatch _ rfl (by simp [hspace, bne, hc])]
  | false =>
    have hskips : mode.skips = isSpace := by
      funext d
      simp [LexerMode.skips, htemplate, hs]
    have hno (kind : TokenKind) (lexical : LexicalForm) : Rule.appliesIn
        { form kind lexical with newline := .significant } mode afterOperand = false := by
      simp [appliesIn, hs]
    have hyes : anySpace.appliesIn mode afterOperand = true := by
      simp [appliesIn, anySpace, form, hs, hlooks]
    refine ⟨anySpace, rfl, ?_⟩
    rw [hskips]
    simp only [List.findSome?_cons, hno, hyes, Bool.false_eq_true, if_false, if_true]
    rw [hmatch _ rfl hspace]

/-- A comment is read whole, where no template text is read. -/
theorem first?_of_comment {mode : LexerMode} (hm : mode.template = false) {body : List Char}
    (hb : Scan.commentTail? body = some body) (afterOperand : Bool) (back : List Char) :
    first? mode afterOperand ('/' :: '*' :: body ++ back) =
      some (form .comment .blockComment, .whole ('/' :: '*' :: body)) := by
  have happlies : (form .comment .blockComment).appliesIn mode afterOperand = true := by
    simp only [appliesIn, form, LexerMode.looksFor]
    cases mode.expected <;> simp [TokenKind.isTrivia]
  have hmatch : (form .comment .blockComment).match? ('/' :: '*' :: body ++ back) =
      some (form .comment .blockComment, .whole ('/' :: '*' :: body)) := by
    have hb' : Scan.commentTail? (body ++ []) = some body := by rw [List.append_nil, hb]
    have htail := Scan.commentTail?_kept hb' back
    simp [match?, form, Pattern.apply, LexicalForm.match?, Scan.blockComment, htail, Lexeme.raw,
      Lexeme.whole]
  rw [List.cons_append] at hmatch ⊢
  refine first?_of_startingWith hm (startingWith_of_lookup rfl) ?_
  simp only [List.findSome?_cons, happlies, hmatch, if_true]

end Rule

namespace Lexer

variable {mode : LexerMode} {afterOperand newline : Bool}

/-- The search finds the same with any fuel that is enough. -/
theorem seek_enough {fuel fuel' : Nat} {place : Cursor} (h : place.rest.length < fuel)
    (h' : place.rest.length < fuel') :
    seek mode afterOperand fuel place newline = seek mode afterOperand fuel' place newline := by
  rcases Nat.le_total fuel fuel' with hle | hle
  · obtain ⟨extra, rfl⟩ := Nat.exists_eq_add_of_le hle
    exact (seek_add mode afterOperand extra fuel newline h).symm
  · obtain ⟨extra, rfl⟩ := Nat.exists_eq_add_of_le hle
    exact seek_add mode afterOperand extra fuel' newline h'

/-- A run of white space is passed over at once. -/
theorem seek_run {c : Char} {text : List Char} (h : mode.skips c = true) (fuel offset : Nat) :
    seek mode afterOperand (fuel + 1) ⟨offset, c :: text⟩ newline =
      seek mode afterOperand fuel
        ⟨offset + byteLength (c :: text.takeWhile mode.skips), text.dropWhile mode.skips⟩
        (newline || (c :: text.takeWhile mode.skips).contains '\n') := by
  obtain ⟨rule, hk, hfirst⟩ := Rule.first?_of_skips h afterOperand text
  have hsplit := List.takeWhile_append_dropWhile (p := mode.skips) (l := text)
  have hdrop := congrArg (List.drop (text.takeWhile mode.skips).length) hsplit
  rw [List.drop_left] at hdrop
  rw [seek, if_neg (by simp), hfirst]
  simp [hk, TokenKind.isTrivia, endsLine, Cursor.advance, Lexeme.raw, Lexeme.whole, ← hdrop]

/-- A character of white space in front of the next token is passed over. -/
theorem seek_skip {c : Char} {text : List Char} (h : mode.skips c = true) {fuel fuel' offset : Nat}
    (hf : text.length + 1 < fuel) (hf' : text.length < fuel') :
    seek mode afterOperand fuel ⟨offset, c :: text⟩ newline =
      seek mode afterOperand fuel' ⟨offset + c.utf8Size, text⟩ (newline || [c].contains '\n') := by
  obtain ⟨n, rfl⟩ : ∃ n, fuel = n + 1 := ⟨fuel - 1, by omega⟩
  rw [seek_run h]
  cases text with
  | nil => exact seek_enough (by simpa using hf) hf'
  | cons d text =>
    by_cases hd : mode.skips d = true
    · -- the run goes on, and both searches pass over all of it
      obtain ⟨n', rfl⟩ : ∃ n', fuel' = n' + 1 := ⟨fuel' - 1, by omega⟩
      simp only [List.length_cons] at hf hf'
      have hdrop : (text.dropWhile mode.skips).length ≤ text.length :=
        (List.dropWhile_sublist _).length_le
      rw [seek_run hd, List.takeWhile_cons_of_pos hd, List.dropWhile_cons_of_pos hd, byteLength,
        Nat.add_assoc, Bool.or_assoc, ← List.contains_append]
      exact seek_enough (by dsimp only; omega) (by dsimp only; omega)
    · rw [List.takeWhile_cons_of_neg hd, List.dropWhile_cons_of_neg hd]
      exact seek_enough (by dsimp only at hf ⊢; omega) hf'

end Lexer

namespace Insertion

variable {insertion : Insertion} {mode : LexerMode} {afterOperand newline : Bool}

/-- Behind the place all is the same. -/
theorem sameSight_behind {fuel offset : Nat} {rest : List Char} (h : insertion.place ≤ offset) :
    insertion.SameSight (Lexer.seek mode afterOperand fuel ⟨offset, rest⟩ newline)
      (Lexer.seek mode afterOperand fuel ⟨offset + byteLength insertion.piece, rest⟩ newline) := by
  have hadvance (offset : Nat) (rest raw : List Char) :
      Cursor.advance ⟨offset + byteLength insertion.piece, rest⟩ raw =
        ⟨offset + byteLength raw + byteLength insertion.piece, rest.drop raw.length⟩ := by
    simp only [Cursor.advance, Nat.add_right_comm]
  induction fuel generalizing offset rest newline with
  | zero => exact .finished (.behind h)
  | succ fuel ih =>
    have hat (kind : TokenKind) (lexeme : Lexeme) (precedence : Option Nat) :
        insertion.SameSight (.token ⟨offset, rest⟩ kind lexeme precedence newline)
          (.token ⟨offset + byteLength insertion.piece, rest⟩ kind lexeme precedence newline) := by
      refine .token (.behind h) ?_ ?_
      · rw [shift, if_neg (Nat.not_lt.mpr h)]
      · rw [hadvance]
        exact .behind (h.trans (Nat.le_add_right _ _))
    rw [Lexer.seek, Lexer.seek]
    dsimp only
    by_cases he : rest.isEmpty = true
    · rw [if_pos he, if_pos he]
      exact .finished (.behind h)
    · rw [if_neg he, if_neg he]
      cases Rule.first? mode afterOperand rest with
      | none => exact .stuck (.behind h)
      | some found =>
        dsimp only
        split
        · split
          · exact hat _ _ _
          · rw [hadvance]
            exact ih (h.trans (Nat.le_add_right _ _))
        · exact hat _ _ _

/-- The piece is passed over. -/
theorem seek_piece (hm : mode.template = false) {fuel fuel' offset : Nat}
    (hf : (insertion.piece ++ insertion.back).length < fuel) (hf' : insertion.back.length < fuel') :
    Lexer.seek mode afterOperand fuel ⟨offset, insertion.piece ++ insertion.back⟩ newline =
      Lexer.seek mode afterOperand fuel'
        ⟨offset + byteLength insertion.piece, insertion.back⟩ newline := by
  obtain ⟨front, piece, back, filler⟩ := insertion
  dsimp only at hf hf' ⊢
  cases filler with
  | space =>
    have hskips : mode.skips ' ' = true := by
      simp [LexerMode.skips, hm, (by decide : isSpace ' ' = true)]
    have hover := @Lexer.seek_skip mode afterOperand newline ' ' back hskips fuel fuel' offset
      (by simpa using hf) hf'
    simpa [byteLength] using hover
  | @comment body hbody hline =>
    obtain ⟨n, rfl⟩ : ∃ n, fuel = n + 1 := ⟨fuel - 1, by omega⟩
    have hfirst := Rule.first?_of_comment hm hbody afterOperand back
    rw [Lexer.seek, if_neg (by simp), hfirst]
    simp only [List.length_append, List.length_cons] at hf
    simp [TokenKind.isTrivia, Lexer.endsLine, Rule.form, Lexeme.whole, Lexeme.raw, Cursor.advance, hline]
    exact Lexer.seek_enough (by dsimp only; omega) hf'

/-- At the place the same is found, unless template text begins there. -/
theorem sameSight_at {fuel fuel' offset : Nat} (hm : offset = insertion.place)
    (ht : (mode.template && insertion.beginsTemplate) = false)
    (hf : insertion.back.length < fuel) (hf' : (insertion.piece ++ insertion.back).length < fuel') :
    insertion.SameSight (Lexer.seek mode afterOperand fuel ⟨offset, insertion.back⟩ newline)
      (Lexer.seek mode afterOperand fuel' ⟨offset, insertion.piece ++ insertion.back⟩ newline) := by
  cases htemplate : mode.template with
  | false =>
    rw [seek_piece htemplate hf' hf]
    exact sameSight_behind hm.ge
  | true =>
    -- no template text is found, with the piece or without it
    rw [htemplate, Bool.true_and, beginsTemplate, Bool.or_eq_false_iff, Bool.or_eq_false_iff] at ht
    obtain ⟨⟨hne, hno⟩, hno'⟩ := ht
    have hstuck {n : Nat} {text : List Char} (hn : text.length < n) (hne : text.isEmpty = false)
        (hno : (Scan.templateChunk text).isSome = false) :
        Lexer.seek mode afterOperand n ⟨offset, text⟩ newline = .stuck ⟨offset, text⟩ := by
      obtain ⟨n, rfl⟩ : ∃ k, n = k + 1 := ⟨n - 1, by omega⟩
      have hnone : Scan.templateChunk text = none := by simpa using hno
      have hfirst : Rule.first? mode afterOperand text = none := by
        simp [Rule.first?, htemplate, Rule.match?, Rule.templateChunk, Rule.form, Pattern.apply,
          LexicalForm.match?, hnone]
      rw [Lexer.seek, if_neg (by simp [hne]), hfirst]
    have hne' : (insertion.piece ++ insertion.back).isEmpty = false := by
      rw [List.isEmpty_eq_false_iff] at hne ⊢
      exact List.append_ne_nil_of_right_ne_nil _ hne
    rw [hstuck hf hne hno, hstuck hf' hne' hno']
    exact .stuck (@Belongs.ahead insertion offset [] hm)

theorem advance_append (offset : Nat) (raw text : List Char) :
    Cursor.advance ⟨offset, raw ++ text⟩ raw = ⟨offset + byteLength raw, text⟩ := by
  rw [Cursor.advance, List.drop_left]

/-- A token that ends in front of the place, or at it. -/
theorem sameSight_token {offset : Nat} {rest : List Char} {lexeme : Lexeme} (kind : TokenKind)
    (precedence : Option Nat) (hm : offset + byteLength (lexeme.raw ++ rest) = insertion.place)
    (hne : lexeme.raw ≠ []) :
    insertion.SameSight
      (.token ⟨offset, lexeme.raw ++ rest ++ insertion.back⟩ kind lexeme precedence newline)
      (.token ⟨offset, lexeme.raw ++ rest ++ (insertion.piece ++ insertion.back)⟩ kind lexeme
        precedence newline) := by
  rw [byteLength_append] at hm
  refine .token (.ahead ?_) ?_ ?_
  · rw [byteLength_append, hm]
  · have hpos : 0 < byteLength lexeme.raw := by
      obtain ⟨c, raw, hraw⟩ := List.exists_cons_of_ne_nil hne
      have hc := c.utf8Size_pos
      rw [hraw, byteLength]
      omega
    rw [shift, if_pos (by dsimp only; omega)]
  · rw [List.append_assoc, List.append_assoc, advance_append, advance_append]
    exact .ahead (by omega)

/-- In front of the place the same is found, if the search cannot tell. -/
theorem sameSight_ahead {rounds fuel fuel' offset : Nat} {mid : List Char}
    (hm : offset + byteLength mid = insertion.place)
    (ht : insertion.seekTells mode afterOperand rounds mid = false) (hrounds : mid.length < rounds)
    (hf : (mid ++ insertion.back).length < fuel)
    (hf' : (mid ++ (insertion.piece ++ insertion.back)).length < fuel') :
    insertion.SameSight
      (Lexer.seek mode afterOperand fuel ⟨offset, mid ++ insertion.back⟩ newline)
      (Lexer.seek mode afterOperand fuel' ⟨offset, mid ++ (insertion.piece ++ insertion.back)⟩
        newline) := by
  induction rounds generalizing mid offset fuel fuel' newline with
  | zero => exact absurd hrounds (Nat.not_lt_zero _)
  | succ rounds ih =>
    cases mid with
    | nil =>
      rw [byteLength, Nat.add_zero] at hm
      exact sameSight_at hm ht hf hf'
    | cons c mid =>
      rw [seekTells] at ht
      simp only [List.cons_append, List.length_cons] at hf hf' hrounds
      by_cases hskips : mode.skips c = true
      · rw [if_pos hskips] at ht
        rw [byteLength, ← Nat.add_assoc] at hm
        rw [List.cons_append, List.cons_append, Lexer.seek_skip hskips hf (Nat.lt_succ_self _),
          Lexer.seek_skip hskips hf' (Nat.lt_succ_self _)]
        exact ih hm ht (by omega) (Nat.lt_succ_self _) (Nat.lt_succ_self _)
      · rw [if_neg hskips, Bool.or_eq_false_iff] at ht
        obtain ⟨hfirst, hrest⟩ := ht
        obtain ⟨hsame, hreach⟩ := findSome?_insert insertion.filler (List.cons_ne_nil c mid)
          Rule.isPlain_of_tried hfirst
        rw [← Rule.first?_eq_tried] at hsame hreach
        rw [← Rule.first?_eq_tried] at hsame
        obtain ⟨n, rfl⟩ : ∃ n, fuel = n + 1 := ⟨fuel - 1, by omega⟩
        obtain ⟨n', rfl⟩ : ∃ n', fuel' = n' + 1 := ⟨fuel' - 1, by omega⟩
        rw [Lexer.seek, Lexer.seek, if_neg (by simp), if_neg (by simp), hsame]
        cases hfound : Rule.first? mode afterOperand (c :: mid ++ insertion.back) with
        | none => exact .stuck (.ahead hm)
        | some found =>
          obtain ⟨rule, lexeme⟩ := found
          have hne := Rule.raw_ne_nil_of_first hfound
          -- what is found lies in front of the place
          have hle : lexeme.raw.length ≤ (c :: mid).length :=
            (Nat.le_add_right _ _).trans (hreach _ hfound)
          obtain ⟨rest, hsplit⟩ := List.prefix_of_prefix_length_le (Rule.first?_isPrefix hfound)
            (List.prefix_append (c :: mid) insertion.back) hle
          rw [hfound] at hrest
          dsimp only at hrest ⊢
          rw [← hsplit, List.drop_left] at hrest
          rw [← hsplit] at hm ⊢
          split
          · rename_i htrivia
            split
            · have hwhole : (Lexeme.whole lexeme.raw).raw = lexeme.raw := by
                simp [Lexeme.raw, Lexeme.whole]
              have hat := @sameSight_token insertion newline offset rest (.whole lexeme.raw) .semicolon
                none
              rw [hwhole] at hat
              exact hat hm hne
            · rename_i hends
              have hnext : insertion.seekTells mode afterOperand rounds rest = false := by
                rw [htrivia] at hrest
                simpa [hends] using hrest
              -- fewer characters are left than there were rounds
              have hpos := List.length_pos_iff.mpr hne
              have hlength := congrArg List.length hsplit
              simp only [List.length_append, List.length_cons] at hlength hf hf'
              rw [byteLength_append, ← Nat.add_assoc] at hm
              rw [List.append_assoc, List.append_assoc, advance_append, advance_append]
              refine ih hm hnext (by omega) ?_ ?_
              · rw [List.length_append]
                omega
              · rw [List.length_append, List.length_append]
                omega
          · exact sameSight_token _ _ hm hne

end Insertion

namespace Lexer

/-- The stream set back to the start of the current token. -/
def rewound (lexer : Lexer) : Lexer :=
  match lexer.current, lexer.history with
  | some _, last :: history => { lexer with cursor := last.start, history }
  | _, _ => lexer

theorem reread_eq_next (lexer : Lexer) (mode : LexerMode) :
    lexer.reread mode = lexer.rewound.next mode := by
  obtain ⟨source, cursor, current, history, exhausted⟩ := lexer
  cases current with
  | none => rfl
  | some word => cases history <;> rfl

end Lexer

namespace Insertion.Follows

variable {insertion : Insertion} {mode : LexerMode} {lexer lexer' : Lexer}

theorem afterOperand (h : insertion.Follows lexer lexer') :
    lexer'.afterOperand = lexer.afterOperand := by
  have hhistory := h.history
  unfold Lexer.afterOperand
  generalize lexer.history = history at hhistory ⊢
  generalize lexer'.history = history' at hhistory ⊢
  cases hhistory with
  | nil => rfl
  | cons hrecord _ => exact hrecord.closesOperand

/-- Streams that belong together still do when both have come to the same. -/
theorem behind (h : insertion.Follows lexer lexer') {sighting sighting' : Sighting}
    (hs : insertion.SameSight sighting sighting') :
    insertion.Follows (lexer.behind sighting) (lexer'.behind sighting') := by
  cases hs with
  | @token start start' kind lexeme precedence newline hstart hoffset hstop =>
    refine ⟨hstop, .inr ⟨_, (start'.advance lexeme.raw).offset, rfl, ?_⟩, .cons ⟨hstart, ?_⟩ h.history,
      rfl⟩
    · change some _ = some _
      rw [hoffset]
    · dsimp only
      rw [h.afterOperand]
  | stuck hstop => exact ⟨hstop, .inl ⟨rfl, rfl⟩, h.history, rfl⟩
  | finished hstop => exact ⟨hstop, .inl ⟨rfl, rfl⟩, h.history, rfl⟩

/-- Reading the next token that cannot tell of the piece gives the same token. -/
theorem next (h : insertion.Follows lexer lexer')
    (ht : insertion.readTells mode lexer = false) :
    insertion.Follows (lexer.next mode) (lexer'.next mode) := by
  rw [Lexer.next_eq_nextFrom, Lexer.next_eq_nextFrom, Lexer.nextFrom, Lexer.nextFrom, h.afterOperand]
  refine h.behind ?_
  generalize hc : lexer.cursor = cursor
  generalize hc' : lexer'.cursor = cursor'
  have hcursor := h.cursor
  rw [hc, hc'] at hcursor
  cases hcursor with
  | @ahead offset mid hm =>
    have hlength : (mid ++ insertion.back).length - insertion.back.length = mid.length := by
      rw [List.length_append, Nat.add_sub_cancel]
    have htells : insertion.seekTells mode lexer.afterOperand (mid.length + 1) mid = false := by
      unfold readTells at ht
      rw [hc] at ht
      simpa [hlength] using ht
    exact sameSight_ahead hm htells (Nat.lt_succ_self _) (Nat.lt_succ_self _) (Nat.lt_succ_self _)
  | behind hle => exact sameSight_behind hle

theorem rewound (h : insertion.Follows lexer lexer') :
    insertion.Follows lexer.rewound lexer'.rewound := by
  obtain ⟨source, cursor, current, history, exhausted⟩ := lexer
  obtain ⟨source', cursor', current', history', exhausted'⟩ := lexer'
  obtain ⟨hcursor, hcurrent, hhistory, hexhausted⟩ := h
  dsimp only at hcursor hcurrent hhistory hexhausted
  rcases hcurrent with ⟨rfl, rfl⟩ | ⟨word, stop, rfl, rfl⟩
  · exact ⟨hcursor, .inl ⟨rfl, rfl⟩, hhistory, hexhausted⟩
  · cases hhistory with
    | nil => exact ⟨hcursor, .inr ⟨word, stop, rfl, rfl⟩, .nil, hexhausted⟩
    | cons hrecord hrest =>
      exact ⟨hrecord.start, .inr ⟨word, stop, rfl, rfl⟩, hrest, hexhausted⟩

theorem reread (h : insertion.Follows lexer lexer')
    (ht : insertion.readTells mode lexer.rewound = false) :
    insertion.Follows (lexer.reread mode) (lexer'.reread mode) := by
  rw [Lexer.reread_eq_next, Lexer.reread_eq_next]
  exact h.rewound.next ht

end Insertion.Follows

end ScriptTree
