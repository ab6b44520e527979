import ScriptTree.Proofs.ByteScanners
import ScriptTree.Proofs.SettledLiterals

/-!
Comments, regular expressions, numbers, strings and template text on bytes, and with them all lexical
forms: none of them slices badly, and each finds the match that it finds on characters.
-/

namespace ScriptTree

namespace ByteScan

/-- The offset of the first `*/` among some bytes. -/
def commentEnd? : List UInt8 → Option Nat
  | [] => none
  | b :: bytes =>
    if b == '*'.toUInt8 && bytes.head? == some '/'.toUInt8 then some 0
    else (commentEnd? bytes).map (· + 1)

/-- A comment between `/*` and `*/`. -/
def blockComment (text : List Char) : Option Extent :=
  if startsWith ['/', '*'] text then
    (commentEnd? ((utf8 text).drop 2)).map fun close => .whole (close + 4)
  else none

/-- A comment from `//` to the end of the line. -/
def lineComment (text : List Char) : Option Extent :=
  if startsWith ['/', '/'] text then some (.whole ((utf8 text).findIdx (· == '\n'.toUInt8))) else none

/-- What a byte means in a regular expression, inside brackets or not. -/
def judgeRegex (inClass : Bool) (b : UInt8) (_ : List UInt8) : Verdict Bool :=
  if b == '\n'.toUInt8 || b == '\r'.toUInt8 then .fail
  else if b == '['.toUInt8 then .pass true
  else if b == ']'.toUInt8 then .pass false
  else if b == '/'.toUInt8 && !inClass then .stop 1
  else .pass inClass

/-- A regular expression on one line, with its flags. -/
def regex (text : List Char) : Checked (Option Extent) :=
  if (utf8 text).head? == some '/'.toUInt8 then
    match scanEscaped judgeRegex false ((utf8 text).drop 1) with
    | none => some none
    | some (before, _) =>
      if before == 0 then some none
      else do
        let rest ← dropBytes? (before + 2) text
        some (some (.whole (before + 2 + countWhile isRegexFlag rest)))
  else some none

/-- The digits of the radix that a byte behind a leading zero stands for. -/
def radixDigit? (marker : UInt8) : Option (Char → Bool) :=
  if marker == 'x'.toUInt8 || marker == 'X'.toUInt8 then some isHexDigit
  else if marker == 'o'.toUInt8 || marker == 'O'.toUInt8 then some isOctalDigit
  else if marker == 'b'.toUInt8 || marker == 'B'.toUInt8 then some isBinaryDigit
  else none

/-- The number of bytes of an integer with a radix. -/
def radixSize (text : List Char) : Checked (Option Nat) :=
  if (utf8 text).head? == some '0'.toUInt8 then
    match (utf8 text)[1]?.bind radixDigit? with
    | some isDigit => do
      let rest ← dropBytes? 2 text
      if 0 < countWhile isDigit rest then some (some (2 + countWhile isDigit rest)) else some none
    | none => some none
  else some none

/-- Whether a byte is a decimal digit. -/
def isDigitByte (b : UInt8) : Bool := '0'.toUInt8 ≤ b && b ≤ '9'.toUInt8

/-- The number of bytes of a decimal with its point, zero if there is none. -/
def mantissaSize (text : List Char) : Checked Nat :=
  let whole := countWhile Char.isDigit text
  if (utf8 text)[whole]? == some '.'.toUInt8 && (0 < whole || (utf8 text)[1]?.any isDigitByte) then do
    let rest ← dropBytes? (whole + 1) text
    some (whole + (1 + countWhile Char.isDigit rest))
  else some whole

/-- The offset behind an exponent that stands at an offset, or that offset if there is none. -/
def exponentStop (text : List Char) (offset : Nat) : Checked Nat :=
  if (utf8 text)[offset]? == some 'e'.toUInt8 || (utf8 text)[offset]? == some 'E'.toUInt8 then do
    let signed := (utf8 text)[offset + 1]? == some '+'.toUInt8 ||
      (utf8 text)[offset + 1]? == some '-'.toUInt8
    let digits := if signed then offset + 2 else offset + 1
    let rest ← dropBytes? digits text
    if 0 < countWhile Char.isDigit rest then some (digits + countWhile Char.isDigit rest)
    else some offset
  else some offset

/-- The number of bytes of a number without regard to what follows it. -/
def numeralSize (text : List Char) : Checked (Option Nat) := do
  match ← radixSize text with
  | some size => some (some size)
  | none =>
    let mantissa ← mantissaSize text
    if mantissa == 0 then some none
    else
      let stop ← exponentStop text mantissa
      some (some stop)

/-- A number that does not run straight into a name. -/
def number (text : List Char) : Checked (Option Extent) := do
  match ← numeralSize text with
  | none => some none
  | some size =>
    let rest ← dropBytes? size text
    if rest.head?.any isNameStart then some none else some (some (.whole size))

/-- What a byte means in a string. -/
def judgeString (quote : UInt8) (_ : Unit) (b : UInt8) (_ : List UInt8) : Verdict Unit :=
  if b == '\n'.toUInt8 || b == '\r'.toUInt8 then .fail
  else if b == quote then .stop 1
  else .pass ()

/-- A string in single or double quotes. -/
def string (text : List Char) : Option Extent :=
  match utf8 text with
  | [] => none
  | quote :: bytes =>
    if quote == '\x27'.toUInt8 || quote == '\x22'.toUInt8 then
      (scanEscaped (judgeString quote) () bytes).map fun (before, _) => ⟨before + 2, 1, before + 1⟩
    else none

/-- What a byte means in template text. -/
def judgeTemplate (_ : Unit) (b : UInt8) (bytes : List UInt8) : Verdict Unit :=
  if b == '\x60'.toUInt8 then .stop 1
  else if b == '$'.toUInt8 && bytes.head? == some '\x7b'.toUInt8 then .stop 2
  else .pass ()

/-- Template text with what ends it. -/
def templateChunk (text : List Char) : Option Extent :=
  (scanEscaped judgeTemplate () (utf8 text)).map fun (before, size) => ⟨before + size, 0, before⟩

/-- A non-empty run of characters up to the first one outside a class. -/
def run (isMember : Char → Bool) (text : List Char) : Option Extent :=
  let size := firstOffset (fun c => !isMember c) text
  if 0 < size then some (.whole size) else none

/-- The end of a comment is found among the bytes where it is found among the characters. -/
theorem commentEnd?_utf8 (text : List Char) :
    (commentEnd? (utf8 text)).map (· + 2) = (Scan.commentTail? text).map byteLength := by
  -- bytes of characters that are not ASCII are passed over
  have hpass (wide bytes : List UInt8) (hw : ∀ b ∈ wide, 128 ≤ b.toNat) :
      commentEnd? (wide ++ bytes) = (commentEnd? bytes).map (· + wide.length) := by
    induction wide with
    | nil => simp
    | cons b wide ih =>
      obtain ⟨hb, hw⟩ := List.forall_mem_cons.mp hw
      rw [List.cons_append, commentEnd?, beq_toUInt8_of_wide hb (by decide), ih hw]
      simp only [Bool.false_and, Bool.false_eq_true, if_false, Option.map_map, Function.comp_def,
        List.length_cons, Nat.add_assoc]
  have hbehind {found : Option Nat} {tail : Option (List Char)} {c : Char}
      (h : found.map (· + 2) = tail.map byteLength) :
      (found.map (· + c.utf8Size)).map (· + 2) = (tail.map (c :: ·)).map byteLength := by
    cases found <;> cases tail <;> simp at h ⊢
    omega
  fun_induction Scan.commentTail? text with
  | case1 => rfl
  | case2 text =>
    rw [utf8_cons_of_ascii (by decide), utf8_cons_of_ascii (by decide), commentEnd?]
    rfl
  | case3 c text hne ih =>
    rcases utf8EncodeChar_cases c with ⟨hc, -⟩ | ⟨hc, hwide⟩
    · have hno : (c.toUInt8 == '*'.toUInt8 && (utf8 text).head? == some '/'.toUInt8) = false := by
        rw [toUInt8_beq hc (by decide), Bool.and_eq_false_imp]
        intro hstar
        refine beq_eq_false_iff_ne.mpr fun hslash => ?_
        obtain ⟨rest, hr⟩ := List.head?_eq_some_iff.mp ((head?_utf8_eq_iff (by decide)).mp hslash)
        exact hne rest (beq_iff_eq.mp hstar) hr
      rw [utf8_cons_of_ascii hc, commentEnd?, hno]
      simp only [Bool.false_eq_true, if_false]
      rw [← utf8Size_of_ascii hc]
      exact hbehind ih
    · rw [utf8_cons, hpass _ _ hwide, String.length_utf8EncodeChar]
      exact hbehind ih

theorem blockComment_eq (text : List Char) :
    blockComment text = (Scan.blockComment text).map Lexeme.extent := by
  unfold blockComment Scan.blockComment
  split
  · rename_i hs
    obtain ⟨rest, hr⟩ := Option.isSome_iff_exists.mp hs
    obtain rfl := eq_append_of_afterSpelling? hr
    have hdrop : (utf8 (['/', '*'] ++ rest)).drop 2 = utf8 rest := drop_utf8_append ['/', '*'] rest
    have hend := commentEnd?_utf8 rest
    rw [hdrop]
    simp only [List.cons_append, List.nil_append]
    cases hb : commentEnd? (utf8 rest) <;> cases ht : Scan.commentTail? rest <;>
      simp only [hb, ht, Option.map_none, Option.map_some, reduceCtorEq, Option.some.injEq] at hend ⊢
    have hslash : '/'.utf8Size = 1 := rfl
    have hstar : '*'.utf8Size = 1 := rfl
    rw [Lexeme.extent_whole, byteLength_cons, byteLength_cons, hslash, hstar, ← hend]
    congr 1
    omega
  · rename_i hs
    split
    · exact absurd rfl hs
    · rfl

/-- A line feed is found among the bytes where it is found among the characters. -/
theorem findIdx_utf8 (text : List Char) : (utf8 text).findIdx (· == '\n'.toUInt8) =
    byteLength (text.takeWhile (· != '\n')) := by
  induction text with
  | nil => rfl
  | cons c text ih =>
    rcases utf8EncodeChar_cases c with ⟨hc, -⟩ | ⟨hc, hwide⟩
    · rw [utf8_cons_of_ascii hc, List.findIdx_cons, toUInt8_beq hc (by decide), ih,
        List.takeWhile_cons]
      by_cases hn : c = '\n'
      · simp [hn, byteLength]
      · rw [beq_eq_false_iff_ne.mpr hn, cond_false, if_pos (bne_iff_ne.mpr hn), byteLength_cons,
          utf8Size_of_ascii hc, Nat.add_comm]
    · have hn : (c != '\n') = true := by
        rw [bne_iff_ne]
        rintro rfl
        exact absurd hc (by decide)
      have hskip : (String.utf8EncodeChar c).findIdx (· == '\n'.toUInt8) =
          (String.utf8EncodeChar c).length :=
        List.findIdx_eq_length.mpr fun b hb => beq_toUInt8_of_wide (hwide b hb) (by decide)
      rw [utf8_cons, List.findIdx_append, hskip, if_neg (Nat.lt_irrefl _), ih, List.takeWhile_cons,
        if_pos hn, byteLength_cons, String.length_utf8EncodeChar, Nat.add_comm]

theorem lineComment_eq (text : List Char) :
    lineComment text = (Scan.lineComment text).map Lexeme.extent := by
  unfold lineComment Scan.lineComment
  split
  · rename_i hs
    obtain ⟨rest, hr⟩ := Option.isSome_iff_exists.mp hs
    obtain rfl := eq_append_of_afterSpelling? hr
    rw [findIdx_utf8, List.cons_append, List.cons_append, List.nil_append, List.takeWhile_cons,
      if_pos (by decide), List.takeWhile_cons, if_pos (by decide)]
    simp
  · rename_i hs
    split
    · exact absurd rfl hs
    · rfl

theorem judgeRegex_wide (inClass : Bool) (b : UInt8) (bytes : List UInt8) (hb : 128 ≤ b.toNat) :
    judgeRegex inClass b bytes = .pass inClass := by
  simp only [judgeRegex, beq_toUInt8_of_wide hb (show '\n'.toNat < 128 by decide),
    beq_toUInt8_of_wide hb (show '\r'.toNat < 128 by decide),
    beq_toUInt8_of_wide hb (show '['.toNat < 128 by decide),
    beq_toUInt8_of_wide hb (show ']'.toNat < 128 by decide),
    beq_toUInt8_of_wide hb (show '/'.toNat < 128 by decide), Bool.or_self, Bool.false_and,
    Bool.false_eq_true, if_false]

/-- A character means in a regular expression what its byte means. -/
theorem judgeRegex_char (inClass : Bool) (c : Char) (bytes : List UInt8) :
    (if c.toNat < 128 then judgeRegex inClass c.toUInt8 bytes else .pass inClass) =
      if c == '\n' || c == '\r' then .fail
      else if c == '[' then .pass true
      else if c == ']' then .pass false
      else if c == '/' && !inClass then .stop 1
      else .pass inClass := by
  by_cases hc : c.toNat < 128
  · have hbyte (d : Char) (hd : d.toNat < 128) : (c.toUInt8 == d.toUInt8) = (c == d) :=
      toUInt8_beq hc hd
    rw [if_pos hc, judgeRegex, hbyte _ (by decide), hbyte _ (by decide), hbyte _ (by decide),
      hbyte _ (by decide), hbyte _ (by decide)]
  · have hne (d : Char) (hd : d.toNat < 128) : (c == d) = false := by
      refine beq_eq_false_iff_ne.mpr fun he => hc ?_
      rw [he]
      exact hd
    rw [if_neg hc, hne _ (by decide), hne _ (by decide), hne _ (by decide), hne _ (by decide),
      hne _ (by decide)]
    rfl

/-- The closing slash is found among the bytes where it is found among the characters. -/
theorem scanEscaped_judgeRegex (inClass : Bool) (text : List Char) :
    scanEscaped judgeRegex inClass (utf8 text) =
      (Scan.regexBody? inClass text).map fun body => (byteLength body, 1) := by
  have hordinary {c : Char} (hc : ¬(c == '\\' || c == '\n' || c == '\r') = true) :
      c ≠ '\\' ∧ (c == '\n' || c == '\r') = false := by
    simpa [and_assoc] using hc
  fun_induction Scan.regexBody? inClass text with
  | case1 inClass => rfl
  | case2 inClass c text ih =>
    rw [scanEscaped_backslash judgeRegex_wide, ih, Option.map_map, Option.map_map]
    rfl
  | case3 inClass c text hne hc =>
    by_cases hslash : c = '\\'
    · cases text with
      | nil => rw [hslash]; rfl
      | cons d text => exact (hne d text hslash rfl).elim
    · have hend : (c == '\n' || c == '\r') = true := by simpa [hslash] using hc
      rw [scanEscaped_cons judgeRegex_wide inClass hslash, judgeRegex_char, if_pos hend]
      rfl
  | case4 inClass c text hne hc hopen ih =>
    obtain ⟨hslash, hend⟩ := hordinary hc
    rw [scanEscaped_cons judgeRegex_wide inClass hslash, judgeRegex_char, hend, hopen]
    simp [ih, Function.comp_def]
  | case5 inClass c text hne hc hopen hclose ih =>
    obtain ⟨hslash, hend⟩ := hordinary hc
    rw [scanEscaped_cons judgeRegex_wide inClass hslash, judgeRegex_char, hend, hclose]
    simp [ih, hopen, Function.comp_def]
  | case6 inClass c text hne hc hopen hclose hstop =>
    obtain ⟨hslash, hend⟩ := hordinary hc
    rw [scanEscaped_cons judgeRegex_wide inClass hslash, judgeRegex_char, hend, hstop]
    simp [hopen, hclose, byteLength]
  | case7 inClass c text hne hc hopen hclose hstop ih =>
    obtain ⟨hslash, hend⟩ := hordinary hc
    rw [scanEscaped_cons judgeRegex_wide inClass hslash, judgeRegex_char, hend]
    simp [ih, hopen, hclose, hstop, Function.comp_def]

theorem isRegexFlag_ascii (c : Char) (h : isRegexFlag c = true) : c.toNat < 128 := by
  simp only [isRegexFlag, Bool.or_eq_true, beq_iff_eq] at h
  rcases h with ((((((rfl | rfl) | rfl) | rfl) | rfl) | rfl) | rfl) | rfl <;> decide

theorem regex_eq (text : List Char) : regex text = some ((Scan.regex text).map Lexeme.extent) := by
  unfold regex
  rw [head?_utf8_beq (by decide)]
  cases text with
  | nil => rfl
  | cons c text =>
    by_cases hc : c = '/'
    · subst hc
      have hdrop : (utf8 ('/' :: text)).drop 1 = utf8 text := drop_utf8_append ['/'] text
      rw [hdrop, scanEscaped_judgeRegex, Scan.regex]
      cases hb : Scan.regexBody? false text with
      | none => rfl
      | some body =>
        obtain ⟨rest, rfl⟩ := Scan.regexBody?_isPrefix hb
        cases body with
        | nil => rfl
        | cons d body =>
          have hpos := byteLength_pos (List.cons_ne_nil d body)
          simp only [List.head?_cons, beq_self_eq_true, if_true, Option.map_some]
          generalize d :: body = body at hpos
          have hne : (byteLength body == 0) = false := beq_eq_false_iff_ne.mpr (by omega)
          have hslash : '/'.utf8Size = 1 := rfl
          -- the flags stand behind both slashes and the body
          have hflags : dropBytes? (byteLength body + 2) ('/' :: (body ++ ['/'] ++ rest)) =
              some rest := by
            have hdrop := dropBytes?_append ('/' :: (body ++ ['/'])) rest
            have hsize : byteLength ('/' :: (body ++ ['/'])) = byteLength body + 2 := by
              simp only [byteLength, byteLength_append, hslash]
              omega
            rw [hsize] at hdrop
            exact hdrop
          have hbehind : (body ++ ['/'] ++ rest).drop (body.length + 1) = rest := by simp
          have hcount : countWhile isRegexFlag rest = byteLength (rest.takeWhile isRegexFlag) :=
            length_takeWhile_of_ascii isRegexFlag_ascii rest
          simp only [hne, Bool.false_eq_true, if_false, hflags, hbehind, hcount, Option.bind_eq_bind,
            Option.bind_some, Lexeme.extent_whole, byteLength_append, byteLength_cons, hslash,
            List.cons_append]
          congr 3
          omega
    · rw [List.head?_cons, if_neg (by simpa using hc)]
      unfold Scan.regex
      split
      · rename_i rest he
        exact absurd (List.cons.inj he).1 hc
      · rfl

theorem judgeString_wide {quote : Char} (hq : quote.toNat < 128) (state : Unit) (b : UInt8)
    (bytes : List UInt8) (hb : 128 ≤ b.toNat) :
    judgeString quote.toUInt8 state b bytes = .pass state := by
  rw [judgeString, beq_toUInt8_of_wide hb (by decide), beq_toUInt8_of_wide hb (by decide),
    beq_toUInt8_of_wide hb hq]
  rfl

/-- A character means in a string what its byte means. -/
theorem judgeString_char {quote : Char} (hq : quote.toNat < 128) (c : Char) (bytes : List UInt8) :
    (if c.toNat < 128 then judgeString quote.toUInt8 () c.toUInt8 bytes else .pass ()) =
      if c == '\n' || c == '\r' then .fail else if c == quote then .stop 1 else .pass () := by
  by_cases hc : c.toNat < 128
  · rw [if_pos hc, judgeString, toUInt8_beq hc (by decide), toUInt8_beq hc (by decide),
      toUInt8_beq hc hq]
  · have hne (d : Char) (hd : d.toNat < 128) : (c == d) = false := by
      refine beq_eq_false_iff_ne.mpr fun he => hc ?_
      rw [he]
      exact hd
    rw [if_neg hc, hne _ (by decide), hne _ (by decide), hne _ hq]
    rfl

/-- The closing quote is found among the bytes where it is found among the characters. -/
theorem scanEscaped_judgeString {quote : Char} (hq : quote.toNat < 128) (text : List Char) :
    scanEscaped (judgeString quote.toUInt8) () (utf8 text) =
      (Scan.stringBody? quote text).map fun body => (byteLength body, 1) := by
  have hordinary {c : Char} (hc : ¬(c == '\\' || c == '\n' || c == '\r') = true) :
      c ≠ '\\' ∧ (c == '\n' || c == '\r') = false := by
    simpa [and_assoc] using hc
  fun_induction Scan.stringBody? quote text with
  | case1 => rfl
  | case2 c text ih =>
    rw [scanEscaped_backslash (judgeString_wide hq), ih, Option.map_map, Option.map_map]
    rfl
  | case3 c text hne hc =>
    by_cases hslash : c = '\\'
    · cases text with
      | nil => rw [hslash]; rfl
      | cons d text => exact (hne d text hslash rfl).elim
    · have hend : (c == '\n' || c == '\r') = true := by simpa [hslash] using hc
      rw [scanEscaped_cons (judgeString_wide hq) () hslash, judgeString_char hq, if_pos hend]
      rfl
  | case4 c text hne hc hstop =>
    obtain ⟨hslash, hend⟩ := hordinary hc
    rw [scanEscaped_cons (judgeString_wide hq) () hslash, judgeString_char hq, hend, hstop]
    rfl
  | case5 c text hne hc hstop ih =>
    obtain ⟨hslash, hend⟩ := hordinary hc
    rw [scanEscaped_cons (judgeString_wide hq) () hslash, judgeString_char hq, hend]
    simp [ih, hstop, Function.comp_def]

theorem string_eq (text : List Char) : string text = (Scan.string text).map Lexeme.extent := by
  unfold string Scan.string
  cases text with
  | nil => rfl
  | cons c text =>
    rcases utf8EncodeChar_cases c with ⟨hc, -⟩ | ⟨hc, hwide⟩
    · rw [utf8_cons_of_ascii hc]
      dsimp only
      rw [toUInt8_beq hc (by decide), toUInt8_beq hc (by decide), scanEscaped_judgeString hc]
      split
      · have hone := utf8Size_of_ascii hc
        rw [Option.map_map, Option.map_map]
        congr 1
        funext body
        simp only [Function.comp_def, Lexeme.extent, Lexeme.size, Lexeme.valueStart,
          Lexeme.valueStop, Lexeme.raw, byteLength_append, byteLength, hone]
        congr 1 <;> omega
      · rfl
    · obtain ⟨first, others, he⟩ := exists_utf8EncodeChar_eq_cons c
      have hfirst := hwide first (he ▸ List.mem_cons_self)
      have hne (d : Char) (hd : d.toNat < 128) : (c == d) = false := by
        refine beq_eq_false_iff_ne.mpr fun he => ?_
        rw [he] at hc
        omega
      rw [utf8_cons, he, List.cons_append]
      dsimp only
      rw [beq_toUInt8_of_wide hfirst (by decide), beq_toUInt8_of_wide hfirst (by decide),
        hne _ (by decide), hne _ (by decide)]
      rfl

theorem judgeTemplate_wide (state : Unit) (b : UInt8) (bytes : List UInt8) (hb : 128 ≤ b.toNat) :
    judgeTemplate state b bytes = .pass state := by
  rw [judgeTemplate, beq_toUInt8_of_wide hb (by decide), beq_toUInt8_of_wide hb (by decide)]
  rfl

/-- A character means in template text what its byte means. -/
theorem judgeTemplate_char (c : Char) (text : List Char) :
    (if c.toNat < 128 then judgeTemplate () c.toUInt8 (utf8 text) else .pass ()) =
      if c == '\x60' then .stop 1
      else if c == '$' && text.head? == some '\x7b' then .stop 2 else .pass () := by
  by_cases hc : c.toNat < 128
  · rw [if_pos hc, judgeTemplate, toUInt8_beq hc (by decide), toUInt8_beq hc (by decide),
      head?_utf8_beq (by decide)]
  · have hne (d : Char) (hd : d.toNat < 128) : (c == d) = false := by
      refine beq_eq_false_iff_ne.mpr fun he => hc ?_
      rw [he]
      exact hd
    rw [if_neg hc, hne _ (by decide), hne _ (by decide)]
    rfl

/-- The end of template text is found among the bytes where it is found among the characters. -/
theorem scanEscaped_judgeTemplate (text : List Char) :
    scanEscaped judgeTemplate () (utf8 text) =
      (Scan.templateBody? text).map fun (body, stop) => (byteLength body, byteLength stop) := by
  fun_induction Scan.templateBody? text with
  | case1 => rfl
  | case2 c text ih =>
    rw [scanEscaped_backslash judgeTemplate_wide, ih, Option.map_map, Option.map_map]
    rfl
  | case3 text =>
    rw [scanEscaped_cons judgeTemplate_wide () (by decide), judgeTemplate_char]
    rfl
  | case4 c text hne hdollar hslash =>
    cases text with
    | nil => rw [eq_of_beq hslash]; rfl
    | cons d text => exact (hne d text (eq_of_beq hslash) rfl).elim
  | case5 c text hne hdollar hslash hstop =>
    rw [scanEscaped_cons judgeTemplate_wide () (by simpa using hslash), judgeTemplate_char, hstop]
    rfl
  | case6 c text hne hdollar hslash hstop ih =>
    have hno : (c == '$' && text.head? == some '\x7b') = false := by
      rw [Bool.and_eq_false_imp]
      intro hd
      refine beq_eq_false_iff_ne.mpr fun hh => ?_
      obtain ⟨rest, hr⟩ := List.head?_eq_some_iff.mp hh
      exact hdollar rest (eq_of_beq hd) hr
    rw [scanEscaped_cons judgeTemplate_wide () (by simpa using hslash), judgeTemplate_char, hno]
    simp [ih, hstop, Function.comp_def]

theorem templateChunk_eq (text : List Char) :
    templateChunk text = (Scan.templateChunk text).map Lexeme.extent := by
  rw [templateChunk, Scan.templateChunk, scanEscaped_judgeTemplate, Option.map_map, Option.map_map]
  congr 1
  funext found
  simp [Lexeme.extent, Lexeme.size, Lexeme.valueStart, Lexeme.valueStop, Lexeme.raw,
    byteLength_append, byteLength]

theorem run_eq (isMember : Char → Bool) (text : List Char) :
    run isMember text = (Scan.run isMember text).map Lexeme.extent := by
  have hempty := isEmpty_iff_byteLength (text.takeWhile isMember)
  unfold run Scan.run
  simp only [firstOffset_eq, ← hempty]
  by_cases hs : byteLength (text.takeWhile isMember) = 0
  · simp [hs]
  · simp [hs, Nat.pos_of_ne_zero hs]

theorem isDigit_ascii (c : Char) (h : c.isDigit = true) : c.toNat < 128 := by
  have hle := (isDigit_iff.mp h).2
  omega

/-- The digits of every radix are ASCII. -/
theorem radixDigit_ascii {marker : Char} {isDigit : Char → Bool}
    (h : Scan.radixDigit? marker = some isDigit) (c : Char) (hc : isDigit c = true) :
    c.toNat < 128 := by
  have hle {a b : Char} (hab : a ≤ b) (hb : b.toNat < 128) : a.toNat < 128 := by
    have hnat : a.toNat ≤ b.toNat := hab
    omega
  unfold Scan.radixDigit? at h
  split at h
  · cases h
    simp only [isHexDigit, Bool.or_eq_true, Bool.and_eq_true, decide_eq_true_eq] at hc
    rcases hc with (hc | ⟨-, hc⟩) | ⟨-, hc⟩
    · exact isDigit_ascii c hc
    · exact hle hc (by decide)
    · exact hle hc (by decide)
  · split at h
    · cases h
      simp only [isOctalDigit, Bool.and_eq_true, decide_eq_true_eq] at hc
      exact hle hc.2 (by decide)
    · split at h
      · cases h
        simp only [isBinaryDigit, Bool.or_eq_true, beq_iff_eq] at hc
        rcases hc with rfl | rfl <;> decide
      · cases h

/-- The letter of a radix is found by its byte. -/
theorem radixDigit?_head (text : List Char) :
    (utf8 text).head?.bind radixDigit? = text.head?.bind Scan.radixDigit? := by
  cases text with
  | nil => rfl
  | cons c text =>
    rcases utf8EncodeChar_cases c with ⟨hc, -⟩ | ⟨hc, hwide⟩
    · have hbyte (d : Char) (hd : d.toNat < 128) : (c.toUInt8 == d.toUInt8) = (c == d) :=
        toUInt8_beq hc hd
      rw [utf8_cons_of_ascii hc, List.head?_cons, List.head?_cons, Option.bind_some,
        Option.bind_some, radixDigit?, Scan.radixDigit?, hbyte _ (by decide), hbyte _ (by decide),
        hbyte _ (by decide), hbyte _ (by decide), hbyte _ (by decide), hbyte _ (by decide)]
    · obtain ⟨first, others, he⟩ := exists_utf8EncodeChar_eq_cons c
      have hfirst := hwide first (he ▸ List.mem_cons_self)
      have hbyte (d : Char) (hd : d.toNat < 128) : (first == d.toUInt8) = false :=
        beq_toUInt8_of_wide hfirst hd
      have hne (d : Char) (hd : d.toNat < 128) : (c == d) = false := by
        refine beq_eq_false_iff_ne.mpr fun he => ?_
        rw [he] at hc
        omega
      rw [utf8_cons, he, List.cons_append, List.head?_cons, List.head?_cons, Option.bind_some,
        Option.bind_some, radixDigit?, Scan.radixDigit?, hbyte _ (by decide), hbyte _ (by decide),
        hbyte _ (by decide), hbyte _ (by decide), hbyte _ (by decide), hbyte _ (by decide),
        hne _ (by decide), hne _ (by decide), hne _ (by decide), hne _ (by decide),
        hne _ (by decide), hne _ (by decide)]

theorem radixDigit?_marker {marker : Char} {isDigit : Char → Bool}
    (h : Scan.radixDigit? marker = some isDigit) : marker.toNat < 128 := by
  unfold Scan.radixDigit? at h
  simp only [Bool.or_eq_true, beq_iff_eq] at h
  split at h
  · rename_i hm
    rcases hm with rfl | rfl <;> decide
  · split at h
    · rename_i hm
      rcases hm with rfl | rfl <;> decide
    · split at h
      · rename_i hm
        rcases hm with rfl | rfl <;> decide
      · cases h

theorem radixSize_eq (text : List Char) :
    radixSize text = some ((Scan.radixInteger? text).map byteLength) := by
  unfold radixSize
  rw [head?_utf8_beq (by decide)]
  cases text with
  | nil => rfl
  | cons c text =>
    by_cases hc : c = '0'
    · subst hc
      have hzero : '0'.utf8Size = 1 := rfl
      have hone : (utf8 ('0' :: text))[1]? = (utf8 text).head? := getElem?_utf8_append ['0'] text
      rw [List.head?_cons, if_pos (beq_self_eq_true _), hone, radixDigit?_head]
      cases text with
      | nil => rfl
      | cons marker text =>
        rw [List.head?_cons, Option.bind_some]
        cases hm : Scan.radixDigit? marker with
        | none => simp [Scan.radixInteger?, hm]
        | some isDigit =>
          have hmarker := utf8Size_of_ascii (radixDigit?_marker hm)
          have hsize : byteLength ['0', marker] = 2 := by simp [byteLength, hzero, hmarker]
          have hdrop : dropBytes? 2 ('0' :: marker :: text) = some text := by
            rw [← hsize]
            exact dropBytes?_append ['0', marker] text
          have hcount : countWhile isDigit text = byteLength (text.takeWhile isDigit) :=
            length_takeWhile_of_ascii (radixDigit_ascii hm) text
          have hempty := isEmpty_iff_byteLength (text.takeWhile isDigit)
          simp only [hdrop, hcount, Option.bind_eq_bind, Option.bind_some, Scan.radixInteger?, hm,
            ← hempty]
          by_cases hs : byteLength (text.takeWhile isDigit) = 0
          · simp [hs]
          · simp [hs, Nat.pos_of_ne_zero hs, hzero, hmarker, ← Nat.add_assoc]
    · rw [List.head?_cons, if_neg (by simpa using hc)]
      simp [Scan.radixInteger?, hc]

/-- A byte is a digit if its character is one. -/
theorem any_isDigitByte (text : List Char) :
    (utf8 text).head?.any isDigitByte = text.head?.any Char.isDigit := by
  have hzero : '0'.toUInt8.toNat = 48 := rfl
  have hnine : '9'.toUInt8.toNat = 57 := rfl
  have hdigit (b : UInt8) : isDigitByte b = true ↔ 48 ≤ b.toNat ∧ b.toNat ≤ 57 := by
    simp only [isDigitByte, Bool.and_eq_true, decide_eq_true_eq, UInt8.le_iff_toNat_le, hzero, hnine]
  cases text with
  | nil => rfl
  | cons c text =>
    rcases utf8EncodeChar_cases c with ⟨hc, -⟩ | ⟨hc, hwide⟩
    · rw [utf8_cons_of_ascii hc, List.head?_cons, List.head?_cons, Option.any_some, Option.any_some,
        Bool.eq_iff_iff, hdigit, isDigit_iff, toNat_toUInt8 hc]
    · obtain ⟨first, others, he⟩ := exists_utf8EncodeChar_eq_cons c
      have hfirst := hwide first (he ▸ List.mem_cons_self)
      rw [utf8_cons, he, List.cons_append, List.head?_cons, List.head?_cons, Option.any_some,
        Option.any_some, Bool.eq_iff_iff, hdigit, isDigit_iff]
      omega

theorem countWhile_isDigit (text : List Char) :
    countWhile Char.isDigit text = byteLength (text.takeWhile Char.isDigit) :=
  length_takeWhile_of_ascii isDigit_ascii text

/-- A text that starts with a digit has digits at its start. -/
theorem isEmpty_takeWhile (isMember : Char → Bool) (text : List Char) :
    (text.takeWhile isMember).isEmpty = !text.head?.any isMember := by
  cases text with
  | nil => rfl
  | cons c text => cases hc : isMember c <;> simp [hc]

theorem mantissaSize_eq (text : List Char) :
    mantissaSize text = some (((Scan.mantissa? text).map byteLength).getD 0) := by
  unfold mantissaSize Scan.mantissa?
  rw [countWhile_isDigit]
  have hsplit : text = text.takeWhile Char.isDigit ++ text.dropWhile Char.isDigit :=
    List.takeWhile_append_dropWhile.symm
  generalize text.takeWhile Char.isDigit = whole at hsplit ⊢
  generalize text.dropWhile Char.isDigit = behind at hsplit ⊢
  subst hsplit
  have hempty := isEmpty_iff_byteLength whole
  simp only [getElem?_utf8_append, head?_utf8_beq (show '.'.toNat < 128 by decide)]
  -- without a point there are only the digits
  have hbare : some (byteLength whole) =
      some (((if whole.isEmpty then none else some whole : Option (List Char)).map byteLength).getD
        0) := by
    rw [← hempty]
    by_cases hs : byteLength whole = 0
    · simp [hs]
    · simp [hs]
  cases behind with
  | nil => exact hbare
  | cons c rest =>
    by_cases hc : c = '.'
    · subst hc
      have hpoint : '.'.utf8Size = 1 := rfl
      have hdrop : dropBytes? (byteLength whole + 1) (whole ++ '.' :: rest) = some rest := by
        have hdrop := dropBytes?_append (whole ++ ['.']) rest
        rw [byteLength_append, List.append_assoc] at hdrop
        exact hdrop
      simp only [List.head?_cons, beq_self_eq_true, Bool.true_and, hdrop, countWhile_isDigit,
        Option.bind_eq_bind, Option.bind_some]
      by_cases hw : whole = []
      · -- a point alone needs a digit behind it
        subst hw
        have hone : (utf8 ([] ++ '.' :: rest))[1]? = (utf8 rest).head? :=
          getElem?_utf8_append ['.'] rest
        rw [hone, any_isDigitByte, isEmpty_takeWhile]
        cases rest.head?.any Char.isDigit <;> simp [byteLength, hpoint]
      · have hpos := byteLength_pos hw
        have hfull : whole.isEmpty = false := by simpa using hw
        simp only [decide_eq_true hpos, Bool.true_or, if_true, hfull, Bool.false_and,
          Bool.false_eq_true, if_false, Option.map_some, Option.getD_some, byteLength_append,
          byteLength_cons, hpoint]
    · simpa [hc] using hbare

/-- An exponent stands behind the digits that it belongs to. -/
theorem exponentStop_append (front rest : List Char) :
    exponentStop (front ++ rest) (byteLength front) =
      some (byteLength front + byteLength (Scan.exponent rest)) := by
  unfold exponentStop
  rw [getElem?_utf8_append, head?_utf8_beq (by decide), head?_utf8_beq (by decide)]
  cases rest with
  | nil => rfl
  | cons mark rest =>
    by_cases hm : mark = 'e' ∨ mark = 'E'
    · have hmark : mark.utf8Size = 1 := by rcases hm with rfl | rfl <;> rfl
      have hsecond : (utf8 (front ++ mark :: rest))[byteLength front + 1]? = (utf8 rest).head? := by
        have hget := getElem?_utf8_append (front ++ [mark]) rest
        rw [byteLength_append, List.append_assoc, byteLength_cons, hmark] at hget
        exact hget
      have hm' : (some mark == some 'e' || some mark == some 'E') = true := by
        rcases hm with rfl | rfl <;> rfl
      rw [List.head?_cons, if_pos hm', hsecond, head?_utf8_beq (by decide),
        head?_utf8_beq (by decide)]
      -- the digits stand behind the sign, if there is one
      have hdigits (sign digits : List Char) (hr : rest = sign ++ digits) :
          (dropBytes? (byteLength front + (1 + byteLength sign)) (front ++ mark :: rest)).bind
            (fun behind => if 0 < countWhile Char.isDigit behind then
              some (byteLength front + (1 + byteLength sign) + countWhile Char.isDigit behind)
              else some (byteLength front)) =
            some (byteLength front + byteLength (if (digits.takeWhile Char.isDigit).isEmpty then []
              else mark :: sign ++ digits.takeWhile Char.isDigit)) := by
        have hdrop := dropBytes?_append (front ++ mark :: sign) digits
        rw [byteLength_append, byteLength_cons, hmark, List.append_assoc, List.cons_append, ← hr]
          at hdrop
        rw [hdrop, Option.bind_some, countWhile_isDigit, ← isEmpty_iff_byteLength]
        by_cases hs : byteLength (digits.takeWhile Char.isDigit) = 0
        · simp [hs, byteLength]
        · simp [hs, Nat.pos_of_ne_zero hs, byteLength_append, hmark, Nat.add_assoc]
      have hmark' : (mark == 'e' || mark == 'E') = true := by rcases hm with rfl | rfl <;> rfl
      unfold Scan.exponent
      dsimp only
      rw [if_pos hmark']
      cases rest with
      | nil => exact hdigits [] [] rfl
      | cons sign rest =>
        by_cases hplus : sign = '+'
        · subst hplus
          exact hdigits ['+'] rest rfl
        · by_cases hminus : sign = '-'
          · subst hminus
            exact hdigits ['-'] rest rfl
          · have hunsigned : (some sign == some '+' || some sign == some '-') = false := by
              simp [hplus, hminus]
            rw [List.head?_cons, hunsigned]
            simp only [Bool.false_eq_true, if_false]
            split
            · rename_i he
              exact absurd (List.cons.inj he).1 hplus
            · rename_i he
              exact absurd (List.cons.inj he).1 hminus
            · exact hdigits [] (sign :: rest) rfl
    · have hm' : (some mark == some 'e' || some mark == some 'E') = false := by
        simpa using hm
      simp only [not_or] at hm
      simp [hm.1, hm.2, Scan.exponent, byteLength]

theorem numeralSize_eq (text : List Char) :
    numeralSize text = some ((Scan.numeral? text).map byteLength) := by
  unfold numeralSize Scan.numeral?
  rw [radixSize_eq]
  cases Scan.radixInteger? text with
  | some digits => rfl
  | none =>
    simp only [Option.map_none, Option.bind_eq_bind, Option.bind_some, mantissaSize_eq]
    cases hm : Scan.mantissa? text with
    | none => rfl
    | some mantissa =>
      obtain ⟨rest, rfl⟩ := Scan.mantissa?_isPrefix hm
      have hne := Scan.mantissa?_ne_nil hm
      have hpos := byteLength_pos hne
      have hzero : (byteLength mantissa == 0) = false := beq_eq_false_iff_ne.mpr (by omega)
      simp only [Option.map_some, Option.getD_some, hzero, Bool.false_eq_true, if_false,
        exponentStop_append, Option.bind_some, List.drop_left, byteLength_append]

theorem number_eq (text : List Char) : number text = some ((Scan.number text).map Lexeme.extent) := by
  unfold number Scan.number
  rw [numeralSize_eq]
  cases hn : Scan.numeral? text with
  | none => rfl
  | some numeral =>
    obtain ⟨rest, rfl⟩ := Scan.numeral?_isPrefix hn
    simp only [Option.map_some, Option.bind_eq_bind, Option.bind_some, dropBytes?_append,
      List.drop_left]
    cases rest with
    | nil => simp
    | cons c rest =>
      by_cases hc : isNameStart c = true <;> simp [hc]

end ByteScan

/-- The match of a lexical form, found on bytes. -/
def LexicalForm.extent? : LexicalForm → List Char → Checked (Option Extent)
  | .functionHead, text => ByteScan.functionHead text
  | .yieldHead, text => ByteScan.yieldHead text
  | .forHead, text => ByteScan.forHead text
  | .relationalWord, text =>
    ByteScan.wordBeforeSpace text
      [['i', 'n', 's', 't', 'a', 'n', 'c', 'e', 'o', 'f'], ['i', 'n'], ['o', 'f']]
  | .continueJump, text => ByteScan.jump Scan.continueWord text
  | .breakJump, text => ByteScan.jump Scan.breakWord text
  | .importWord, text => ByteScan.wordBeforeSpace text [['a', 's'], ['f', 'r', 'o', 'm']]
  | .exportDefault, text => ByteScan.exportDefault text
  | .blockComment, text => some (ByteScan.blockComment text)
  | .lineComment, text => some (ByteScan.lineComment text)
  | .regex, text => ByteScan.regex text
  | .number, text => ByteScan.number text
  | .identifier, text => some ((ByteScan.nameSize? text).map .whole)
  | .string, text => some (ByteScan.string text)
  | .templateChunk, text => some (ByteScan.templateChunk text)
  | .lineFeed, text => some (if ByteScan.startsWith ['\n'] text then some (.whole 1) else none)
  | .inlineSpace, text => some (ByteScan.run (fun c => isSpace c && c != '\n') text)
  | .space, text => some (ByteScan.run isSpace text)

/-- No lexical form slices badly on bytes, and each finds the match that it finds on characters. -/
theorem LexicalForm.extent?_eq (form : LexicalForm) (text : List Char) :
    form.extent? text = some ((form.match? text).map Lexeme.extent) := by
  cases form with
  | functionHead => exact ByteScan.functionHead_eq text
  | yieldHead => exact ByteScan.yieldHead_eq text
  | forHead => exact ByteScan.forHead_eq text
  | relationalWord => exact ByteScan.wordBeforeSpace_eq text _
  | continueJump => exact ByteScan.jump_eq _ text
  | breakJump => exact ByteScan.jump_eq _ text
  | importWord => exact ByteScan.wordBeforeSpace_eq text _
  | exportDefault => exact ByteScan.exportDefault_eq text
  | blockComment => exact congrArg some (ByteScan.blockComment_eq text)
  | lineComment => exact congrArg some (ByteScan.lineComment_eq text)
  | regex => exact ByteScan.regex_eq text
  | number => exact ByteScan.number_eq text
  | identifier =>
    rw [extent?, match?, ByteScan.nameSize?_eq, Scan.identifier, Option.map_map, Option.map_map]
    simp [Function.comp_def]
  | string => exact congrArg some (ByteScan.string_eq text)
  | templateChunk => exact congrArg some (ByteScan.templateChunk_eq text)
  | lineFeed =>
    rw [extent?, match?, ByteScan.startsWith_singleton]
    cases text with
    | nil => rfl
    | cons c text =>
      by_cases hc : c = '\n'
      · rw [hc]
        rfl
      · simp [Scan.lineFeed, hc]
  | inlineSpace => exact congrArg some (ByteScan.run_eq _ text)
  | space => exact congrArg some (ByteScan.run_eq _ text)

end ScriptTree
