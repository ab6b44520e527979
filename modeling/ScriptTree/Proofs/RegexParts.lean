import ScriptTree.Proofs.Division
import ScriptTree.Proofs.SpelledNodes
import ScriptTree.Proofs.StreamRequests

/-!
What the regular expressions look like that a stream can hand out.

A body is made of plain characters, of characters behind a backslash, and of sets between brackets, in
which a slash is a member like any other. A backslash takes any character with it, also a line break.
So a regular expression stays on its line, unless a line break stands in it behind a backslash.
-/

namespace ScriptTree

/-- The line breaks that no part of a regular expression is by itself. -/
def isRegexBreak (c : Char) : Bool := c == '\n' || c == '\r'

/-- Characters that are a member of a set by themselves. -/
def isPlainMember (c : Char) : Bool := c != '\\' && !isRegexBreak c && c != ']'

/-- Characters that are a part of a body by themselves. A closing bracket is one: it closes nothing
there. -/
def isPlainPart (c : Char) : Bool := c != '\\' && !isRegexBreak c && c != '[' && c != '/'

/-- A member of a set between brackets. -/
inductive RegexMember where
  /-- A character that stands for itself. -/
  | plain (c : Char) (h : isPlainMember c = true)
  /-- A character behind a backslash. -/
  | escape (c : Char)

/-- A part of the body of a regular expression. -/
inductive RegexPart where
  /-- A character that stands for itself. -/
  | plain (c : Char) (h : isPlainPart c = true)
  /-- A character behind a backslash. -/
  | escape (c : Char)
  /-- A set between brackets. -/
  | set (members : List RegexMember)

namespace RegexMember

/-- How a member is written. -/
def text : RegexMember → List Char
  | plain c _ => [c]
  | escape c => ['\\', c]

/-- Whether a backslash takes a line break with it. -/
def hidesBreak : RegexMember → Bool
  | plain _ _ => false
  | escape c => isRegexBreak c

theorem any_text (member : RegexMember) : member.text.any isRegexBreak = member.hidesBreak := by
  cases member with
  | plain c h =>
    simp only [isPlainMember, Bool.and_eq_true, Bool.not_eq_true'] at h
    simp [text, hidesBreak, h.1.2]
  | escape c => simp [text, hidesBreak, isRegexBreak]

end RegexMember

/-- How the members of a set are written. -/
def setText (members : List RegexMember) : List Char := members.flatMap RegexMember.text

theorem setText_cons (member : RegexMember) (members : List RegexMember) :
    setText (member :: members) = member.text ++ setText members := List.flatMap_cons

namespace RegexPart

/-- How a part is written. -/
def text : RegexPart → List Char
  | plain c _ => [c]
  | escape c => ['\\', c]
  | set members => '[' :: (setText members ++ [']'])

/-- Whether a backslash takes a line break with it. -/
def hidesBreak : RegexPart → Bool
  | plain _ _ => false
  | escape c => isRegexBreak c
  | set members => members.any RegexMember.hidesBreak

theorem text_ne_nil (part : RegexPart) : part.text ≠ [] := by
  cases part <;> exact List.cons_ne_nil _ _

/-- A part has a line break in it only behind a backslash. -/
theorem any_text (part : RegexPart) : part.text.any isRegexBreak = part.hidesBreak := by
  cases part with
  | plain c h =>
    simp only [isPlainPart, Bool.and_eq_true, Bool.not_eq_true'] at h
    simp [text, hidesBreak, h.1.1.2]
  | escape c => simp [text, hidesBreak, isRegexBreak]
  | set members =>
    have hopen : isRegexBreak '[' = false := rfl
    have hclose : isRegexBreak ']' = false := rfl
    simp only [text, setText, hidesBreak, List.any_cons, List.any_append, List.any_flatMap,
      List.any_nil, hopen, hclose, RegexMember.any_text, Bool.or_false, Bool.false_or]

end RegexPart

/-- How the parts of a body are written. -/
def partsText (parts : List RegexPart) : List Char := parts.flatMap RegexPart.text

theorem partsText_cons (part : RegexPart) (parts : List RegexPart) :
    partsText (part :: parts) = part.text ++ partsText parts := List.flatMap_cons

theorem partsText_eq_nil_iff {parts : List RegexPart} : partsText parts = [] ↔ parts = [] := by
  cases parts with
  | nil => simp [partsText]
  | cons part parts => simp [partsText_cons, part.text_ne_nil]

/-- What can be left of a body, outside of brackets or between them. -/
def IsBodyRest : Bool → List Char → Prop
  | false, body => ∃ parts, body = partsText parts
  | true, body => ∃ members parts, body = setText members ++ ']' :: partsText parts

section Body

variable {inClass : Bool} {body rest text : List Char}

theorem IsBodyRest.escape (c : Char) (h : IsBodyRest inClass body) :
    IsBodyRest inClass ('\\' :: c :: body) := by
  cases inClass with
  | false =>
    obtain ⟨parts, rfl⟩ := h
    exact ⟨.escape c :: parts, rfl⟩
  | true =>
    obtain ⟨members, parts, rfl⟩ := h
    exact ⟨.escape c :: members, parts, rfl⟩

/-- A bracket opens a set, and is a member of a set that is open already. -/
theorem IsBodyRest.openBracket (h : IsBodyRest true body) : IsBodyRest inClass ('[' :: body) := by
  obtain ⟨members, parts, rfl⟩ := h
  cases inClass with
  | false =>
    refine ⟨.set members :: parts, ?_⟩
    simp [partsText_cons, RegexPart.text]
  | true => exact ⟨.plain '[' rfl :: members, parts, rfl⟩

/-- A bracket closes the set that is open, and is a part by itself if none is. -/
theorem IsBodyRest.closeBracket (h : IsBodyRest false body) : IsBodyRest inClass (']' :: body) := by
  obtain ⟨parts, rfl⟩ := h
  cases inClass with
  | false => exact ⟨.plain ']' rfl :: parts, rfl⟩
  | true => exact ⟨[], parts, rfl⟩

theorem IsBodyRest.plain {c : Char} (hc : (c == '\\' || c == '\n' || c == '\r') = false)
    (hopen : c ≠ '[') (hclose : c ≠ ']') (hslash : inClass = false → c ≠ '/')
    (h : IsBodyRest inClass body) : IsBodyRest inClass (c :: body) := by
  simp only [Bool.or_eq_false_iff, beq_eq_false_iff_ne] at hc
  obtain ⟨⟨hescape, hfeed⟩, hreturn⟩ := hc
  cases inClass with
  | false =>
    obtain ⟨parts, rfl⟩ := h
    have hplain : isPlainPart c = true := by
      simp [isPlainPart, isRegexBreak, hescape, hfeed, hreturn, hopen, hslash rfl]
    exact ⟨.plain c hplain :: parts, rfl⟩
  | true =>
    obtain ⟨members, parts, rfl⟩ := h
    have hplain : isPlainMember c = true := by
      simp [isPlainMember, isRegexBreak, hescape, hfeed, hreturn, hclose]
    exact ⟨.plain c hplain :: members, parts, rfl⟩

/-- What is read as a body is made of parts, by induction along the text. -/
theorem isBodyRest_of_regexBody? (h : Scan.regexBody? inClass text = some body) :
    IsBodyRest inClass body := by
  fun_induction Scan.regexBody? inClass text generalizing body with
  | case1 => cases h
  | case2 inClass c text ih =>
    obtain ⟨body, hb, rfl⟩ := Option.map_eq_some_iff.mp h
    exact (ih hb).escape c
  | case3 => cases h
  | case4 inClass c text _ _ hopen ih =>
    obtain ⟨body, hb, rfl⟩ := Option.map_eq_some_iff.mp h
    rw [eq_of_beq hopen]
    exact (ih hb).openBracket
  | case5 inClass c text _ _ _ hclose ih =>
    obtain ⟨body, hb, rfl⟩ := Option.map_eq_some_iff.mp h
    rw [eq_of_beq hclose]
    exact (ih hb).closeBracket
  | case6 inClass c text _ _ _ _ hstop =>
    cases h
    -- a body ends only outside of brackets
    have hout : inClass = false := by simpa using (Bool.and_eq_true_iff.mp hstop).2
    subst hout
    exact ⟨[], rfl⟩
  | case7 inClass c text _ hc hopen hclose hstop ih =>
    obtain ⟨body, hb, rfl⟩ := Option.map_eq_some_iff.mp h
    refine (ih hb).plain (by simpa using hc) (by simpa using hopen) (by simpa using hclose) ?_
    rintro rfl
    simpa using hstop

/-- A set is read up to its closing bracket, by induction along its members. -/
theorem regexBody?_members (members : List RegexMember) (text : List Char) :
    Scan.regexBody? true (setText members ++ ']' :: text) =
      (Scan.regexBody? false text).map fun body => setText members ++ ']' :: body := by
  induction members with
  | nil => rfl
  | cons member members ih =>
    rw [setText_cons]
    cases member with
    | escape c =>
      change Scan.regexBody? true ('\\' :: c :: (setText members ++ ']' :: text)) = _
      rw [Scan.regexBody?.eq_2, ih, Option.map_map]
      rfl
    | plain c h =>
      simp only [isPlainMember, isRegexBreak, Bool.and_eq_true, bne_iff_ne, ne_eq, Bool.not_eq_true',
        Bool.or_eq_false_iff, beq_eq_false_iff_ne] at h
      obtain ⟨⟨hescape, hfeed, hreturn⟩, hclose⟩ := h
      change Scan.regexBody? true (c :: (setText members ++ ']' :: text)) = _
      rw [Scan.regexBody?.eq_3 _ _ _ fun _ _ hc _ => hescape hc]
      -- an opening bracket is a member too, and the scan is between brackets before and behind it
      simp [hescape, hfeed, hreturn, hclose, ih, Function.comp_def, RegexMember.text]

/-- The parts of a body are read up to the closing slash, by induction along them. -/
theorem regexBody?_parts (parts : List RegexPart) (rest : List Char) :
    Scan.regexBody? false (partsText parts ++ '/' :: rest) = some (partsText parts) := by
  induction parts with
  | nil => rfl
  | cons part parts ih =>
    rw [partsText_cons]
    cases part with
    | escape c =>
      change Scan.regexBody? false ('\\' :: c :: (partsText parts ++ '/' :: rest)) = _
      rw [Scan.regexBody?.eq_2, ih]
      rfl
    | plain c h =>
      simp only [isPlainPart, isRegexBreak, Bool.and_eq_true, bne_iff_ne, ne_eq, Bool.not_eq_true',
        Bool.or_eq_false_iff, beq_eq_false_iff_ne] at h
      obtain ⟨⟨⟨hescape, hfeed, hreturn⟩, hopen⟩, hslash⟩ := h
      change Scan.regexBody? false (c :: (partsText parts ++ '/' :: rest)) = _
      rw [Scan.regexBody?.eq_3 _ _ _ fun _ _ hc _ => hescape hc]
      simp [hescape, hfeed, hreturn, hopen, hslash, ih, RegexPart.text]
    | set members =>
      have hset : (RegexPart.set members).text ++ partsText parts ++ '/' :: rest =
          '[' :: (setText members ++ ']' :: (partsText parts ++ '/' :: rest)) := by
        simp [RegexPart.text, setText]
      have hbody := regexBody?_members members (partsText parts ++ '/' :: rest)
      rw [ih, Option.map_some] at hbody
      rw [hset, Scan.regexBody?.eq_3 _ _ _ (fun _ _ hc _ => absurd hc (by decide))]
      simp [hbody, RegexPart.text]

end Body

/-- A regular expression: a body that is not empty, and flags. -/
structure RegexLiteral where
  /-- The parts of the body. -/
  parts : List RegexPart
  /-- The flags. -/
  flags : List Char
  nonempty : parts ≠ []
  allFlags : flags.all isRegexFlag = true

namespace RegexLiteral

/-- How a regular expression is written. -/
def text (literal : RegexLiteral) : List Char :=
  '/' :: (partsText literal.parts ++ '/' :: literal.flags)

/-- A regular expression has a line break in it only behind a backslash: flags are none. -/
theorem any_text (literal : RegexLiteral) :
    literal.text.any isRegexBreak = literal.parts.any RegexPart.hidesBreak := by
  have hslash : isRegexBreak '/' = false := rfl
  have hflags : literal.flags.any isRegexBreak = false := by
    rw [List.any_eq_false]
    intro c hc hbreak
    have hflag := List.all_eq_true.mp literal.allFlags c hc
    simp only [isRegexBreak, Bool.or_eq_true, beq_iff_eq] at hbreak
    rcases hbreak with rfl | rfl
    · exact absurd hflag (by decide)
    · exact absurd hflag (by decide)
  simp only [text, partsText, List.any_cons, List.any_append, List.any_flatMap, hslash, hflags,
    RegexPart.any_text, Bool.or_false, Bool.false_or]

/-- What is read as a regular expression is one. -/
theorem exists_of_regex {text : List Char} {lexeme : Lexeme} (h : Scan.regex text = some lexeme) :
    ∃ literal : RegexLiteral, lexeme = .whole literal.text := by
  unfold Scan.regex at h
  split at h
  · rename_i text
    split at h
    · cases h
    · rename_i body hne hb
      cases h
      obtain ⟨parts, rfl⟩ := isBodyRest_of_regexBody? hb
      have hparts : parts ≠ [] := fun he => hne (partsText_eq_nil_iff.mpr he)
      exact ⟨⟨parts, _, hparts, List.all_takeWhile⟩, rfl⟩
    · cases h
  · cases h

/-- A regular expression at the end of a text is read as one. -/
theorem regex_text (literal : RegexLiteral) :
    Scan.regex literal.text = some (.whole literal.text) := by
  have hbody := regexBody?_parts literal.parts literal.flags
  have hne : partsText literal.parts ≠ [] := fun he => literal.nonempty (partsText_eq_nil_iff.mp he)
  have hflags : literal.flags.takeWhile isRegexFlag = literal.flags :=
    List.takeWhile_eq_self_iff.mpr (List.all_eq_true.mp literal.allFlags)
  have hbehind : (partsText literal.parts ++ '/' :: literal.flags).drop
      ((partsText literal.parts).length + 1) = literal.flags := by
    rw [← List.drop_drop, List.drop_left]
    rfl
  rw [text, Scan.regex, hbody]
  split
  · rename_i he
    exact absurd (Option.some.inj he) hne
  · rename_i body _ he
    cases he
    simp only [hbehind, hflags, List.cons_append]
  · rename_i he
    cases he

end RegexLiteral

namespace Scan

/-- Text that starts like a regular expression starts with no line comment. -/
theorem lineComment_eq_none {raw text : List Char} (h : opensRegex raw = true) (hp : raw <+: text) :
    lineComment text = none := by
  unfold opensRegex at h
  split at h
  · rename_i c tail
    obtain ⟨rest, rfl⟩ := hp
    unfold lineComment
    split
    · rename_i he
      obtain ⟨rfl, -⟩ := List.cons.inj (List.cons.inj he).2
      exact absurd h (by decide)
    · rfl
  · cases h

/-- A block comment at the start of a text stays one where the text goes on. -/
theorem blockComment_eq_none {raw text : List Char} (h : blockComment text = none)
    (hp : raw <+: text) : blockComment raw = none := by
  rw [Option.eq_none_iff_forall_ne_some]
  intro comment hc
  obtain ⟨rest, rfl⟩ := hp
  obtain ⟨behind, rfl⟩ := blockComment_isPrefix hc
  have hkept := blockComment_kept hc (behind ++ rest)
  rw [← List.append_assoc, h] at hkept
  cases hkept

end Scan

namespace Rule

variable {text : List Char} {lexeme : Lexeme}

theorem match?_of_apply {rule : Rule} (h : rule.pattern.apply text = some lexeme)
    (hne : lexeme.raw ≠ []) : rule.match? text = some (rule, lexeme) := by
  have hfull : (!lexeme.raw.isEmpty) = true := by simpa using hne
  rw [match?, h, Option.filter_some, if_pos hfull, Option.map_some]

/-- Where a regular expression is read, no block comment starts: its rule comes before. -/
theorem blockComment_eq_none_of_first {mode : LexerMode} {afterOperand : Bool} {rule : Rule}
    (h : first? mode afterOperand text = some (rule, lexeme)) (hk : rule.kind = .regexLiteral) :
    Scan.blockComment text = none := by
  obtain ⟨-, ⟨-, rfl⟩ | ⟨htemplate, -, -⟩⟩ := applies_of_first h
  · cases hk
  rw [Option.eq_none_iff_forall_ne_some]
  intro comment hb
  -- the rule for block comments is tried in every mode that reads tokens, and first of all
  have happlies : (form .comment .blockComment).appliesIn mode afterOperand = true := by
    cases hexpected : mode.expected <;>
      simp [appliesIn, form, LexerMode.looksFor, hexpected, TokenKind.isTrivia]
  unfold Scan.blockComment at hb
  split at hb
  · rename_i inner
    obtain ⟨tail, -, rfl⟩ := Option.map_eq_some_iff.mp hb
    have hmatch : (form .comment .blockComment).match? ('/' :: '*' :: inner) =
        some (form .comment .blockComment, .whole ('/' :: '*' :: tail)) :=
      match?_of_apply hb (List.cons_ne_nil _ _)
    rw [first?_eq_startingWith _ _ _ _ htemplate, startingWith_of_lookup rfl, List.findSome?_cons,
      if_pos happlies, hmatch] at h
    cases h
    cases hk
  · cases hb

/-- In front of a regular expression it is read, unless a block comment starts there. -/
theorem first?_regularExpression (h : Scan.regex text = some lexeme)
    (hb : Scan.blockComment text = none) :
    first? .default false text = some (regularExpression, lexeme) := by
  obtain ⟨inner, rfl⟩ : ∃ inner, text = '/' :: inner := by
    unfold Scan.regex at h
    split at h
    · exact ⟨_, rfl⟩
    · cases h
  obtain ⟨literal, rfl⟩ := RegexLiteral.exists_of_regex h
  have hregex : regularExpression.match? ('/' :: inner) =
      some (regularExpression, .whole literal.text) :=
    match?_of_apply h (List.cons_ne_nil _ _)
  have hblock : (form .comment .blockComment).match? ('/' :: inner) = none := by
    have happly : (form .comment .blockComment).pattern.apply ('/' :: inner) = none := hb
    rw [match?, happly]
    rfl
  -- a body does not start with a slash, so there is no line comment either
  have hline : (form .comment .lineComment).match? ('/' :: inner) = none := by
    have happly : (form .comment .lineComment).pattern.apply ('/' :: inner) = none :=
      Scan.lineComment_eq_none (Scan.opensRegex_of_regex h) (Scan.regex_isPrefix h)
    rw [match?, happly]
    rfl
  refine @first?_of_match _ _ [form .comment .blockComment, form .comment .lineComment] _ _ _ _
    (startingWith_of_lookup rfl) ?_ rfl hregex
  intro other hin
  rcases List.mem_pair.mp hin with rfl | rfl
  · exact hblock
  · exact hline

end Rule

/-- A token that is a regular expression has the text of one, and no block comment starts it. -/
theorem Token.At.exists_regexLiteral {place : Cursor} {token : Token} (h : token.At place)
    (hk : token.kind = .regexLiteral) :
    ∃ literal : RegexLiteral, literal.text = token.raw.toList ∧
      Scan.blockComment token.raw.toList = none := by
  have hprefix := h.spans.2.2.2
  cases h with
  | comment => cases hk
  | @plain mode afterOperand newline rule lexeme hf _ =>
    have hb := Rule.blockComment_eq_none_of_first hf hk
    obtain ⟨happly, ⟨-, rfl⟩ | ⟨-, hin, -⟩⟩ := Rule.applies_of_first hf
    · cases hk
    rw [(Rule.kept_patterns rule hin).2.1 hk] at happly
    obtain ⟨literal, rfl⟩ := RegexLiteral.exists_of_regex happly
    refine ⟨literal, ?_, Scan.blockComment_eq_none hb hprefix⟩
    simp [Token.ofLexeme, Lexeme.raw, Lexeme.whole]

namespace Session

/-- The texts that a stream can hand out as a regular expression, whatever it reads and is asked for,
are the regular expressions that do not start with a block comment; and a line break is in one only
behind a backslash. -/
theorem run_regexLiteral_iff (raw : List Char) :
    ((∃ source requests token, (run ⟨.ofText source, []⟩ requests).lexer.current = some token ∧
        token.kind = .regexLiteral ∧ token.raw.toList = raw) ↔
      ∃ literal : RegexLiteral, literal.text = raw ∧ Scan.blockComment raw = none) ∧
    ∀ literal : RegexLiteral,
      literal.text.any isRegexBreak = literal.parts.any RegexPart.hidesBreak := by
  refine ⟨⟨?_, ?_⟩, RegexLiteral.any_text⟩
  · rintro ⟨source, requests, token, hc, hk, rfl⟩
    have hsound : Sound source (run ⟨.ofText source, []⟩ requests) :=
      (Sound.alone rfl (Lexer.ofText_faithful source)).run requests
    obtain ⟨place, closesOperand, history, -, hat, -⟩ := hsound.lexer.2.current token hc
    exact hat.exists_regexLiteral hk
  · rintro ⟨literal, rfl, hb⟩
    have hfirst := Rule.first?_regularExpression literal.regex_text hb
    obtain ⟨place, gap, -, -, hnext⟩ :=
      @Lexer.next_over (.ofText literal.text) _ _ _ (.none _) hfirst rfl
    refine ⟨literal.text, [.next .default], ?_⟩
    simp only [run, step, List.foldl_cons, List.foldl_nil, hnext]
    refine ⟨_, rfl, rfl, ?_⟩
    simp [Lexeme.raw, Lexeme.whole]

/-- A backslash takes a line feed with it, so this regular expression goes over two lines. -/
example : ((run ⟨.ofText "/\\\n/".toList, []⟩ [.next .default]).lexer.current.map fun token =>
    (token.kind, token.raw)) = some (.regexLiteral, "/\\\n/") := by
  decide

end Session

end ScriptTree
