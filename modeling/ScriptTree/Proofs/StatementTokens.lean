import ScriptTree.Proofs.Keywords
import ScriptTree.Proofs.MisreadNames
import ScriptTree.Proofs.Reading
import ScriptTree.Proofs.ShiftedStream

/-!
The tokens that statements are made of, where they are more than a word: white space of any length,
words read in other modes, the heads of loops, and jumps with their labels.
-/

namespace ScriptTree

namespace Lexer

/-- White space before a token makes no difference, however much of it there is. -/
theorem Facing.pass {lexer : Lexer} {mode : LexerMode} {afterOperand : Bool} {gap text : List Char}
    (h : lexer.Facing mode afterOperand (gap ++ text)) (hg : ∀ c ∈ gap, mode.skips c = true) :
    lexer.Facing mode afterOperand text := by
  induction gap with
  | nil => exact h
  | cons c gap ih =>
    refine ih ?_ fun d hd => hg d (List.mem_cons_of_mem c hd)
    obtain ⟨earlier, newline, hr, ha, rfl⟩ := h
    have hc := hg c List.mem_cons_self
    refine ⟨{ earlier with cursor := earlier.cursor.advance [c] }, newline || [c].contains '\n', ?_,
      ha, ?_⟩
    · simp [Cursor.advance, hr]
    · have hplace : earlier.cursor = ⟨earlier.cursor.offset, c :: (gap ++ text)⟩ := by
        rw [← List.cons_append, ← hr]
      have hover := @seek_skip mode earlier.afterOperand newline c (gap ++ text) hc
        (earlier.cursor.rest.length + 1) ((gap ++ text).length + 1) earlier.cursor.offset
        (by simp [hr]) (by simp)
      rw [← hplace] at hover
      have hadvance : earlier.cursor.advance [c] =
          ⟨earlier.cursor.offset + c.utf8Size, gap ++ text⟩ := by
        simp [Cursor.advance, byteLength, hr]
      unfold nextFrom
      rw [behind_advanced, hadvance, hover]
      rfl

end Lexer

theorem Parser.Before.pass {parser : Parser} {afterOperand : Bool} {gap text : List Char}
    (h : parser.Before afterOperand (gap ++ text)) (hg : ∀ c ∈ gap, isSpace c = true) :
    parser.Before afterOperand text where
  facing := h.facing.pass fun c hc => by simp [LexerMode.skips, LexerMode.default, hg c hc]
  answers := h.answers
  arrowFree := h.arrowFree.of_append
  budget := by
    have hl := h.budget
    rw [List.length_append] at hl
    omega

/-- A space is passed over in every mode but that of template text. -/
theorem LexerMode.skips_space {mode : LexerMode} (h : mode.template = false) :
    ∀ c ∈ [' '], mode.skips c = true := by
  intro c hc
  obtain rfl := List.mem_singleton.mp hc
  have hspace : isSpace ' ' = true := rfl
  have hline : (' ' == '\n') = false := rfl
  simp [skips, h, hspace, hline]

theorem Parser.Before.space {parser : Parser} {afterOperand : Bool} {text : List Char}
    (h : parser.Before afterOperand (' ' :: text)) : parser.Before afterOperand text := by
  have h' : parser.Before afterOperand ([' '] ++ text) := h
  exact h'.pass (List.forall_mem_singleton.mpr rfl)

/-- What is read behind a token, in any mode that passes over the white space between. -/
theorem ParserM.run_nextTokenIn {parser : Parser} {kind kind' : TokenKind}
    {precedence precedence' : Option Nat} {value gap value' rest : List Char} {mode : LexerMode}
    (h : parser.On kind precedence value (gap ++ (value' ++ rest)))
    (hb : Begins mode kind.closesOperand kind' precedence' value' rest)
    (hm : ∀ c ∈ gap, mode.skips c = true) (hk : kind'.isOrdinary = true)
    (hv : isUpdateSpelling value' = false) :
    ∃ word between, nextTokenIn mode parser = .ok (some word) between ∧ word.kind = kind' ∧
      parser.Moved between ∧ between.On kind' precedence' value' rest := by
  have hs := ((h.shows.next mode).pass hm).shows hb hk hv
  obtain ⟨word, hw, hword, -⟩ := hs.token
  refine ⟨word, { parser with lexer := parser.lexer.next mode }, ?_, hword, ⟨_, _, rfl⟩, hs,
    h.answers, h.arrowFree.of_append.of_append, ?_⟩
  · simp only [nextTokenIn, run_bind, run_modifyLexer, run_current, hw]
  · have hl := h.budget
    simp only [List.length_append] at hl
    change rest.length < parser.budget
    omega

/-- Line feeds matter for white space only. -/
theorem Rule.first?_newlines {text : List Char} (h : ∀ c ∈ text.head?, isSpace c = false)
    (afterOperand : Bool) :
    first? .newlines afterOperand text = first? .default afterOperand text := by
  have hlines : ∀ rule ∈ table, rule.newline = .any ∨ rule.pattern = .form .lineFeed ∨
      rule.pattern = .form .inlineSpace ∨ rule.pattern = .form .space := by
    decide
  have hnone {rule : Rule} (hl : rule.pattern = .form .lineFeed ∨
      rule.pattern = .form .inlineSpace ∨ rule.pattern = .form .space) : rule.match? text = none := by
    cases text with
    | nil => rcases hl with hl | hl | hl <;> (rw [match?, hl]; rfl)
    | cons c text =>
      have hc : isSpace c = false := h c rfl
      have hn : c ≠ '\n' := by
        rintro rfl
        cases hc
      rcases hl with hl | hl | hl
      · exact match?_eq_none text (by rw [hl]; simpa [Pattern.canStart, LexicalForm.canStart] using hn)
      · exact match?_eq_none text (by rw [hl]; exact hc)
      · exact match?_eq_none text (by rw [hl]; exact hc)
  rw [first?, first?, if_neg (by decide), if_neg (by decide)]
  refine findSome?_congr fun rule hr => ?_
  rcases hlines rule hr with ha | hl
  · have happlies : rule.appliesIn .newlines afterOperand = rule.appliesIn .default afterOperand := by
      simp [appliesIn, ha, LexerMode.newlines, LexerMode.default, LexerMode.looksFor]
    rw [happlies]
  · rw [hnone hl, ite_self, ite_self]

theorem Begins.newlines {afterOperand : Bool} {kind : TokenKind} {precedence : Option Nat}
    {value rest : List Char} (h : Begins .default afterOperand kind precedence value rest)
    (hs : ∀ c ∈ (value ++ rest).head?, isSpace c = false) :
    Begins .newlines afterOperand kind precedence value rest := by
  obtain ⟨rule, hf, hk, hp⟩ := h
  exact ⟨rule, (Rule.first?_newlines hs afterOperand).trans hf, hk, hp⟩

section Words

open Rule

/-- An opening parenthesis where no other token is looked for. -/
theorem begins_openParen (afterOperand : Bool) (rest : List Char) :
    Begins (.expecting [.openParen]) afterOperand .openParen none ['('] rest := by
  refine ⟨punctuators .openParen ["("], ?_, rfl, rfl⟩
  cases afterOperand <;> exact first?_of_startingWith rfl (startingWith_of_lookup rfl) rfl

/-- The keyword of a loop head takes the parenthesis with it. -/
theorem first?_forHead {head : String} (h : head ∈ ["for", "for await"]) (afterOperand : Bool)
    (rest : List Char) :
    first? .default afterOperand (head.toList ++ ' ' :: '(' :: rest) =
      some (keywordForm .forKeyword .forHead, ⟨[], head.toList, [' ', '(']⟩) := by
  have hs : startingWith 'f' = [words .booleanLiteral ["true", "false"],
      keywordForm .functionKeyword .functionHead] ++ _ :: _ := startingWith_of_lookup rfl
  have hn : ∀ text : List Char, ∀ rule ∈ [words .booleanLiteral ["true", "false"],
      keywordForm .functionKeyword .functionHead], rule.match? ('f' :: 'o' :: text) = none := by
    intro text rule hr
    simp only [List.mem_cons, List.not_mem_nil, or_false] at hr
    rcases hr with rfl | rfl <;> rfl
  simp only [List.mem_cons, List.not_mem_nil, or_false] at h
  rcases h with rfl | rfl
  all_goals exact first?_of_keywordForm afterOperand hs (hn _) rfl nofun

/-- The keywords of jumps. -/
def jumpWords : List (String × TokenKind) :=
  [("break", .breakKeyword), ("continue", .continueKeyword)]

theorem first?_jump {word : String} {kind : TokenKind} (h : (word, kind) ∈ jumpWords)
    (afterOperand : Bool) {text : List Char} {lexeme : Lexeme}
    (hm : Scan.jump word.toList (word.toList ++ text) = some lexeme) (hr : lexeme.raw ≠ []) :
    ∃ rule, first? .default afterOperand (word.toList ++ text) = some (rule, lexeme) ∧
      rule.kind = kind ∧ rule.precedence = none := by
  simp only [jumpWords, List.mem_cons, List.not_mem_nil, or_false, Prod.mk.injEq] at h
  rcases h with ⟨rfl, rfl⟩ | ⟨rfl, rfl⟩
  · have hs : startingWith 'b' = [] ++ keywordForm .breakKeyword .breakJump ::
        [form .identifierName .identifier] := startingWith_of_lookup rfl
    have hf : first? .default afterOperand ('b' :: ("reak".toList ++ text)) = _ :=
      first?_of_keywordForm afterOperand hs (fun _ hr => absurd hr List.not_mem_nil) hm hr
    exact ⟨_, hf, rfl, rfl⟩
  · have hs : startingWith 'c' = [words .declarationKeyword ["let", "const", "var"]] ++
        keywordForm .continueKeyword .continueJump :: [words .classKeyword ["class"],
          words .caseKeyword ["case"], form .identifierName .identifier] := startingWith_of_lookup rfl
    have hn : ∀ rule ∈ [words .declarationKeyword ["let", "const", "var"]],
        rule.match? ('c' :: ("ontinue".toList ++ text)) = none := by
      intro rule hr
      rw [List.mem_singleton.mp hr]
      rfl
    have hf : first? .default afterOperand ('c' :: ("ontinue".toList ++ text)) = _ :=
      first?_of_keywordForm afterOperand hs hn hm hr
    exact ⟨_, hf, rfl, rfl⟩

theorem jump_plain (word text : List Char) :
    Scan.jump word (word ++ ';' :: text) = some ⟨word, [], []⟩ := by
  have hw : afterWord? word (word ++ ';' :: text) = some (';' :: text) := by
    rw [afterWord?, afterSpelling?_append]
    rfl
  simp only [Scan.jump, hw, Option.bind_eq_bind, Option.bind_some]
  rfl

theorem jump_label (word : List Char) {label : List Char} (hl : IsName label) (text : List Char) :
    Scan.jump word (word ++ ' ' :: (label ++ ';' :: text)) = some ⟨word ++ [' '], label, []⟩ := by
  have hw : afterWord? word (word ++ ' ' :: (label ++ ';' :: text)) =
      some (' ' :: (label ++ ';' :: text)) := by
    rw [afterWord?, afterSpelling?_append]
    rfl
  have hg : ∀ c ∈ (label ++ ';' :: text).head?, ¬Scan.isGap c = true := by
    intro c hc hg
    have hs := hl.head_not_space (';' :: text) c hc
    simp only [Scan.isGap, Bool.or_eq_true, beq_iff_eq] at hg
    rcases hg with rfl | rfl <;> cases hs
  have htake : (label ++ ';' :: text).takeWhile Scan.isGap = [] := by
    cases ht : label ++ ';' :: text with
    | nil => rfl
    | cons c tail => exact List.takeWhile_cons_of_neg (hg c (by simp [ht]))
  have hdrop : (label ++ ';' :: text).dropWhile Scan.isGap = label ++ ';' :: text := by
    cases ht : label ++ ';' :: text with
    | nil => rfl
    | cons c tail => exact List.dropWhile_cons_of_neg (hg c (by simp [ht]))
  have hname : Scan.name? (label ++ ';' :: text) = some label := name?_append hl rfl
  simp only [Scan.jump, hw, Option.bind_eq_bind, Option.bind_some]
  rw [List.takeWhile_cons_of_pos (by decide), List.dropWhile_cons_of_pos (by decide), htake, hdrop,
    hname]
  rfl

end Words

end ScriptTree
