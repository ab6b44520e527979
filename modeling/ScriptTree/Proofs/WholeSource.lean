import ScriptTree.Proofs.StateLaws
import ScriptTree.Proofs.Names
import ScriptTree.Proofs.Symbols

/-!
A parse that succeeds has read the whole text.

Its stream of tokens has come to the end, so every byte of the text lies in a token or in trivia. The
program is empty exactly for a text of nothing but white space and comments.
-/

namespace ScriptTree

/-- Whether a pattern might start with white space. -/
def Pattern.startsSpace : Pattern → Bool
  | .words spellings | .punctuators spellings =>
    spellings.any fun spelling => spelling.toList.head?.all isSpace
  | .form lexical => match lexical with
    | .lineFeed | .inlineSpace | .space | .templateChunk => true
    | _ => false

theorem ne_of_isSpace {c d : Char} (h : isSpace c = true) (hd : isSpace d = false) : c ≠ d := by
  rintro rfl
  rw [h] at hd
  cases hd

theorem not_isDigit_of_isSpace {c : Char} (h : isSpace c = true) : c.isDigit = false := by
  rw [Bool.eq_false_iff]
  intro hd
  have hn := isDigit_iff.mp hd
  rcases code_of_isSpace h with hc | ⟨hc, -⟩ <;> omega

theorem canStart_of_isSpace {pattern : Pattern} (hp : pattern.startsSpace = false) {c : Char}
    (h : isSpace c = true) : pattern.canStart c = false := by
  cases pattern with
  | words spellings | punctuators spellings =>
    change (spellings.any fun spelling => spelling.toList.head?.all isSpace) = false at hp
    simp only [List.any_eq_false, Bool.not_eq_true] at hp
    simp only [Pattern.canStart, List.any_eq_false, Bool.not_eq_true]
    intro spelling hs
    have hh := hp spelling hs
    cases hl : spelling.toList with
    | nil => simp [hl] at hh
    | cons d tail =>
      rw [hl] at hh
      have hd : isSpace d = false := by simpa using hh
      simpa using Ne.symm (ne_of_isSpace h hd)
  | form lexical =>
    have hne (d : Char) (hd : isSpace d = false) : (c == d) = false :=
      beq_eq_false_iff_ne.mpr (ne_of_isSpace h hd)
    cases lexical
    case lineFeed | inlineSpace | space | templateChunk => cases hp
    case number =>
      simp only [Pattern.canStart, LexicalForm.canStart, not_isDigit_of_isSpace h,
        hne '.' (by decide), Bool.or_self]
    case identifier =>
      rw [Pattern.canStart, LexicalForm.canStart, Bool.eq_false_iff]
      intro hn
      rw [isSpace_of_isNameStart hn] at h
      cases h
    all_goals
      simp (disch := decide) only [Pattern.canStart, LexicalForm.canStart, hne, Bool.or_self]

namespace Rule

theorem table_startsSpace : table.filter (fun rule => rule.pattern.startsSpace) =
    [{ form .semicolon .lineFeed with newline := .significant },
     { form .whitespace .inlineSpace with newline := .significant }, anySpace] := by
  rfl

/-- White space is read as such, all that there is at once. -/
theorem first?_of_isSpace {c : Char} (h : isSpace c = true) (afterOperand : Bool)
    (text : List Char) : first? .default afterOperand (c :: text) =
      some (anySpace, .whole (c :: text.takeWhile isSpace)) := by
  have hnone (rule : Rule) (hr : rule.pattern.startsSpace = false) :
      (if rule.appliesIn .default afterOperand then rule.match? (c :: text) else none) = none := by
    rw [match?_eq_none text (canStart_of_isSpace hr h), ite_self]
  rw [first?, if_neg (by decide), ← findSome?_filter_eq hnone, table_startsSpace]
  -- of the three rules for white space, two need line feeds to count
  have hno (kind : TokenKind) (lexical : LexicalForm) : Rule.appliesIn
      { form kind lexical with newline := .significant } .default afterOperand = false := by
    simp [appliesIn, LexerMode.default]
  have hyes : anySpace.appliesIn .default afterOperand = true := by
    cases afterOperand <;> rfl
  have hm : anySpace.match? (c :: text) =
      some (anySpace, .whole (c :: text.takeWhile isSpace)) := by
    simp [anySpace, form, match?, Pattern.apply, LexicalForm.match?, Scan.run, h, Lexeme.whole,
      Lexeme.raw]
  simp only [List.findSome?_cons, hno, hyes, hm, Bool.false_eq_true, if_false, if_true]

end Rule

/-- Whether a text starts with something else than white space. -/
def startsSolid (text : List Char) : Bool := text.head?.all fun c => !isSpace c

theorem Trivia.afterSpace {text rest : List Char} (h : Trivia text rest)
    (hr : startsSolid rest = true) : Trivia (afterSpace text) rest := by
  induction h with
  | none text =>
    have hd : ScriptTree.afterSpace text = text := by
      cases text with
      | nil => rfl
      | cons c text =>
        have hc : isSpace c = false := by simpa [startsSolid] using hr
        exact List.dropWhile_cons_of_neg (by simp [hc])
    rw [hd]
    exact .none text
  | @space c text rest hc _ ih =>
    have hd : ScriptTree.afterSpace (c :: text) = ScriptTree.afterSpace text :=
      List.dropWhile_cons_of_pos hc
    rw [hd]
    exact ih hr
  | blockComment hb ht => exact .blockComment hb ht
  | lineComment hb he ht => exact .lineComment hb he ht

namespace Rule

/-- Where a text starts with trivia, the first rule that matches passes over some of them. -/
theorem first?_of_trivia {text stop : List Char} (h : Trivia text stop)
    (hstop : startsSolid stop = true) (hne : text ≠ stop) (afterOperand : Bool) :
    ∃ rule lexeme rest, first? .default afterOperand text = some (rule, lexeme) ∧
      rule.kind.isTrivia = true ∧ text = lexeme.raw ++ rest ∧ Trivia rest stop := by
  have happlies (kind : TokenKind) (lexical : LexicalForm) :
      (form kind lexical).appliesIn .default afterOperand = true := by
    cases afterOperand <;> rfl
  cases h with
  | none => exact absurd rfl hne
  | @space c text _ hc ht =>
    refine ⟨anySpace, _, afterSpace text, first?_of_isSpace hc afterOperand text, rfl, ?_,
      ht.afterSpace hstop⟩
    simp only [Lexeme.raw, Lexeme.whole, List.nil_append, List.append_nil, List.cons_append]
    exact congrArg _ (leadingSpace_append text).symm
  | @blockComment body text _ hb ht =>
    have hm : (form .comment .blockComment).match? ('/' :: '*' :: (body ++ '*' :: '/' :: text)) =
        some (form .comment .blockComment, .whole ('/' :: '*' :: (body ++ ['*', '/']))) := by
      have htail := Scan.commentTail?_eq_some_iff.mpr ⟨body, text, rfl, rfl, hb⟩
      simp [match?, form, Pattern.apply, LexicalForm.match?, Scan.blockComment, htail, Lexeme.raw,
        Lexeme.whole]
    refine ⟨form .comment .blockComment, .whole ('/' :: '*' :: (body ++ ['*', '/'])), text, ?_, rfl, ?_,
      ht⟩
    · refine first?_of_startingWith rfl (startingWith_of_lookup rfl) ?_
      simp only [List.findSome?_cons, happlies, hm, if_true]
    · simp [Lexeme.raw, Lexeme.whole]
  | @lineComment body text _ hb he ht =>
    have hm : (form .comment .lineComment).match? ('/' :: '/' :: (body ++ text)) =
        some (form .comment .lineComment, .whole ('/' :: '/' :: body)) := by
      have hline := Scan.takeWhile_line_eq_iff.mpr ⟨text, rfl, hb, he⟩
      simp [match?, form, Pattern.apply, LexicalForm.match?, Scan.lineComment, hline, Lexeme.raw,
        Lexeme.whole]
    have hno : (form .comment .blockComment).match? ('/' :: '/' :: (body ++ text)) = none := rfl
    refine ⟨form .comment .lineComment, .whole ('/' :: '/' :: body), text, ?_, rfl, ?_, ht⟩
    · refine first?_of_startingWith rfl (startingWith_of_lookup rfl) ?_
      simp only [List.findSome?_cons, happlies, hno, hm, if_true]
    · simp [Lexeme.raw, Lexeme.whole]

end Rule

namespace Lexer

/-- Over nothing but trivia, the search comes to the end. -/
theorem seek_of_trivia {afterOperand newline : Bool} {fuel : Nat} {place : Cursor}
    (h : Trivia place.rest []) (hf : place.rest.length < fuel) :
    ∃ stop, seek .default afterOperand fuel place newline = .finished stop := by
  induction fuel generalizing place newline with
  | zero => exact absurd hf (Nat.not_lt_zero _)
  | succ fuel ih =>
    rw [seek]
    split
    · exact ⟨place, rfl⟩
    · rename_i hne
      obtain ⟨rule, lexeme, rest, hfirst, ht, hs, hrest⟩ :=
        Rule.first?_of_trivia h rfl (fun h0 => hne (List.isEmpty_iff.mpr h0)) afterOperand
      have hpos := List.length_pos_iff.mpr (Rule.raw_ne_nil_of_first hfirst)
      have hd : (place.advance lexeme.raw).rest = rest := by
        rw [Cursor.advance, hs, List.drop_left]
      have hend : endsLine .default rule.kind lexeme.raw = false := rfl
      simp only [hfirst, ht, hend, if_true, Bool.false_eq_true, if_false]
      apply ih
      · rw [hd]
        exact hrest
      · have hl := congrArg List.length hs
        rw [List.length_append] at hl
        rw [hd]
        omega

theorem next_of_trivia {lexer : Lexer} (h : Trivia lexer.cursor.rest []) :
    (lexer.next .default).current = none ∧ (lexer.next .default).exhausted = true := by
  obtain ⟨stop, hs⟩ := @seek_of_trivia lexer.afterOperand false _ _ h (Nat.lt_succ_self _)
  unfold next
  rw [hs]
  exact ⟨rfl, rfl⟩

theorem next_history_of_none {lexer : Lexer} {mode : LexerMode}
    (h : (lexer.next mode).current = none) : (lexer.next mode).history = lexer.history := by
  unfold next at h ⊢
  split at h
  · cases h
  · rfl
  · rfl

/-- A byte of the text that lies in one of some tokens. -/
def InToken (tokens : List Token) (offset : Nat) : Prop :=
  ∃ token ∈ tokens, token.start ≤ offset ∧ offset < token.stop

/-- A byte of the text that lies in white space or in a comment. -/
def InTrivia (source : List Char) (offset : Nat) : Prop :=
  ∃ front gap rest, source = front ++ (gap ++ rest) ∧ Trivia (gap ++ rest) rest ∧
    byteLength front ≤ offset ∧ offset < byteLength front + byteLength gap

/-- Before the cursor, every byte lies in a token or in trivia. -/
theorem Tiled.covers {source : List Char} {history : List TokenRecord} {tokens : List Token}
    {place : Cursor} (h : Tiled source history tokens place) {offset : Nat}
    (ho : offset < place.offset) : InToken tokens offset ∨ InTrivia source offset := by
  induction h with
  | start => exact absurd ho (Nat.not_lt_zero _)
  | @trivia history tokens place stop htiled hskip ih =>
    rcases Nat.lt_or_ge offset place.offset with hlt | hge
    · exact ih hlt
    · -- the byte lies in the stretch from the one place to the other
      obtain ⟨front, hs, hp⟩ := htiled.splits
      obtain ⟨gap, hg, hstop⟩ := hskip.spans
      have ht := hskip.trivia
      rw [hg] at hs ht
      exact Or.inr ⟨front, gap, stop.rest, hs, ht, by omega, by omega⟩
  | @token history tokens place token closesOperand _ hat ih =>
    rcases Nat.lt_or_ge offset place.offset with hlt | hge
    · rcases ih hlt with ⟨other, hin, hcov⟩ | hin
      · exact Or.inl ⟨other, List.mem_cons_of_mem _ hin, hcov⟩
      · exact Or.inr hin
    · obtain ⟨hstart, hstop, -, -⟩ := hat.spans
      have ho' : offset < place.offset + byteLength token.raw.toList := ho
      exact Or.inl ⟨token, List.mem_cons_self .., by omega, by omega⟩

/-- A stream that has come to the end of a text: every byte of the text lies in one of the tokens it
has handed out or in trivia. -/
structure HasRead (source : List Char) (lexer : Lexer) : Prop where
  cursor : lexer.cursor = ⟨byteLength source, []⟩
  current : lexer.current = none
  exhausted : lexer.exhausted = true
  covered : ∃ tokens, Tiled source lexer.history tokens lexer.cursor ∧
    ∀ offset < byteLength source, InToken tokens offset ∨ InTrivia source offset

theorem Faithful.hasRead {lexer : Lexer} (h : lexer.Faithful) (hx : lexer.exhausted = true) :
    HasRead lexer.source lexer := by
  obtain ⟨hcurrent, hrest⟩ := h.ended hx
  obtain ⟨tokens, ht⟩ := h.tiled
  obtain ⟨front, hs, ho⟩ := ht.splits
  rw [hrest, List.append_nil] at hs
  have hoffset : lexer.cursor.offset = byteLength lexer.source := by rw [ho, hs]
  refine ⟨?_, hcurrent, hx, tokens, ht, fun offset hlt => ht.covers (hoffset ▸ hlt)⟩
  rw [← hoffset, ← hrest]

end Lexer

namespace Parser

open ParserM

theorem hasRead_of_run_ok {parser : Parser} {tree : Node} (h : parser.lexer.Faithful)
    (hr : parser.run.1 = .ok tree) : parser.run.2.lexer.HasRead parser.lexer.source := by
  have hx : parser.run.2.lexer.exhausted = true := by
    unfold Parser.run at hr ⊢
    cases hp : program arrowAhead parser with
    | ok tree after => exact exhausted_of_program hp
    | error failure after => simp [hp] at hr
  have hread := (run_faithful h).hasRead hx
  rwa [(run_sameSetting parser).source] at hread

/-- The run of a parser, from behind its first token on. -/
theorem run_eq_ok_iff {parser : Parser} {tree : Node} : parser.run.1 = .ok tree ↔
    ∃ body after, tree = .program body ∧ after.lexer.exhausted = true ∧
      programBody (goal arrowAhead parser.options.maxDepth) parser.budget
        { parser with lexer := parser.lexer.next .default } = .ok body after := by
  unfold Parser.run
  simp only [program, nextToken, run_bind, run_modifyLexer, run_get]
  cases programBody (goal arrowAhead parser.options.maxDepth) parser.budget
      { parser with lexer := parser.lexer.next .default } with
  | error failure after => simp
  | ok body after =>
    by_cases hx : after.lexer.exhausted = true
    · simp only [if_pos hx, run_pure]
      constructor
      · intro h
        cases h
        exact ⟨body, after, rfl, hx, rfl⟩
      · rintro ⟨_, _, rfl, -, he⟩
        cases he
        rfl
    · simp only [if_neg hx, run_reject]
      constructor
      · intro h
        cases h
      · rintro ⟨_, _, rfl, hx', he⟩
        cases he
        exact absurd hx' hx

theorem programBody_eq_nil_iff {sub : Goal → ParserM Node} {rounds : Nat} {parser after : Parser} :
    programBody sub (rounds + 1) parser = .ok [] after ↔
      parser.lexer.current = none ∧ after = parser := by
  constructor
  · intro h
    rw [programBody, run_bind, run_current] at h
    dsimp only at h
    split at h
    · rename_i hn
      cases h
      exact ⟨Option.isNone_iff_eq_none.mp hn, rfl⟩
    · -- a statement that is read stands in the program
      obtain ⟨_, _, -, h⟩ := ok_of_bind_ok h
      obtain ⟨_, _, -, h⟩ := ok_of_bind_ok h
      obtain ⟨_, _, -, h⟩ := ok_of_bind_ok h
      cases h
  · rintro ⟨hn, rfl⟩
    simp only [programBody, run_bind, run_current, hn, Option.isNone_none, if_true, run_pure]

/-- The program is empty if and only if the text holds nothing but white space and comments. -/
theorem run_eq_empty_iff (source : String) (options : ParserOptions) :
    (ofText source options).run.1 = .ok (.program []) ↔ Trivia source.toList [] := by
  rw [run_eq_ok_iff]
  constructor
  · rintro ⟨body, after, hb, hx, hp⟩
    cases hb
    obtain ⟨hn, rfl⟩ := programBody_eq_nil_iff.mp hp
    -- no token was handed out, so the way to the end leads over trivia only
    have hf := (Lexer.ofText_faithful source.toList).next .default
    obtain ⟨tokens, ht⟩ := hf.tiled
    have hhistory : ((Lexer.ofText source.toList).next .default).history = [] :=
      Lexer.next_history_of_none hn
    rw [hhistory, Lexer.next_source] at ht
    have hskip := ht.skips_of_nil.trivia
    rwa [(hf.ended hx).2] at hskip
  · intro ht
    have hcursor : Trivia (Lexer.ofText source.toList).cursor.rest [] := ht
    obtain ⟨hn, hx⟩ := Lexer.next_of_trivia hcursor
    exact ⟨[], _, rfl, hx, programBody_eq_nil_iff.mpr ⟨hn, rfl⟩⟩

/-- A parse from the beginning of a text never stops half way: if it comes to a tree, the stream of
tokens stands at the end of the text, and every byte lies in a token that was handed out or in
trivia. The tree is the empty program if and only if the text is white space and comments. -/
theorem run_reads_whole_source (source : String) (options : ParserOptions) :
    (∀ tree, (ofText source options).run.1 = .ok tree →
      (ofText source options).run.2.lexer.HasRead source.toList) ∧
    ((ofText source options).run.1 = .ok (.program []) ↔ Trivia source.toList []) := by
  refine ⟨fun tree h => ?_, run_eq_empty_iff source options⟩
  exact hasRead_of_run_ok (Lexer.ofText_faithful source.toList) h

theorem run_reads_whole_source_return :
    (ofText "function f() \x7b return /* a\nb */ \x7d" {}).run.1.isOk = true ∧
    (ofText "function f() \x7b return /* a\nb */ \x7d" {}).run.2.lexer.HasRead
      "function f() \x7b return /* a\nb */ \x7d".toList ∧
    (ofText "/* a */ // b" {}).run.1 = .ok (.program []) := by
  have hr : (ofText "function f() \x7b return /* a\nb */ \x7d" {}).run.1.isOk = true := by
    decide +kernel
  have ht : Trivia "/* a */ // b".toList [] := by
    refine @Trivia.blockComment [' ', 'a', ' '] _ _ (by decide) (.space rfl ?_)
    exact @Trivia.lineComment [' ', 'b'] [] [] (by decide) (Or.inl rfl) (.none [])
  refine ⟨hr, ?_, (run_reads_whole_source "/* a */ // b" {}).2.mpr ht⟩
  cases htree : (ofText "function f() \x7b return /* a\nb */ \x7d" {}).run.1 with
  | ok tree => exact (run_reads_whole_source _ {}).1 tree htree
  | error failure =>
    rw [htree] at hr
    cases hr

end Parser

end ScriptTree
