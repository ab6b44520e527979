import ScriptTree.Proofs.Utf8Bytes

/-!
The lexical forms on bytes, and those of them that are words.

Lexing works on offsets: it looks at single bytes, counts characters or bytes, and slices the text at
the sums. Each form is written here in that way, and a slice at an offset that does not stand between
two characters is a fault. None of them ever makes one, and each finds the match of its form on
characters.
-/

namespace ScriptTree

/-- A computation that may slice a text: none where a slice is at fault. -/
abbrev Checked (α : Type) : Type := Option α

/-- A match by its offsets. -/
structure Extent where
  /-- The number of bytes matched. -/
  size : Nat
  /-- The offset of the value in the match. -/
  valueStart : Nat
  /-- The offset behind the value in the match. -/
  valueStop : Nat
  deriving DecidableEq, Repr

/-- A match that is all value. -/
def Extent.whole (size : Nat) : Extent := ⟨size, 0, size⟩

/-- The offsets of a match. -/
def Lexeme.extent (lexeme : Lexeme) : Extent := ⟨lexeme.size, lexeme.valueStart, lexeme.valueStop⟩

@[simp] theorem Lexeme.extent_whole (text : List Char) :
    (Lexeme.whole text).extent = .whole (byteLength text) := by
  simp [extent, whole, size, valueStart, valueStop, raw, Extent.whole, byteLength]

/-- The first characters of a class take as many bytes as there are, if they are all ASCII. -/
theorem length_takeWhile_of_ascii {isMember : Char → Bool}
    (h : ∀ c, isMember c = true → c.toNat < 128) (text : List Char) :
    (text.takeWhile isMember).length = byteLength (text.takeWhile isMember) := by
  induction text with
  | nil => rfl
  | cons c text ih =>
    rw [List.takeWhile_cons]
    split
    · rename_i hc
      rw [List.length_cons, byteLength_cons, utf8Size_of_ascii (h c hc), ih, Nat.add_comm]
    · rfl

namespace ByteScan

/-- The offset of the first character with a property, or the number of bytes of the text. -/
def firstOffset (isWanted : Char → Bool) : List Char → Nat
  | [] => 0
  | c :: text => if isWanted c then 0 else c.utf8Size + firstOffset isWanted text

/-- The number of bytes of the white space at the start of a text. -/
def spaceSize (text : List Char) : Nat := firstOffset (fun c => !isSpace c) text

/-- How many characters at the start of a text belong to a class. -/
def countWhile (isMember : Char → Bool) (text : List Char) : Nat := (text.takeWhile isMember).length

/-- Whether a text starts with a spelling. -/
def startsWith (spelling text : List Char) : Bool := (afterSpelling? spelling text).isSome

/-- Whether no name goes on at an offset. An offset inside a character would pass as well. -/
def boundaryAt (text : List Char) (offset : Nat) : Bool :=
  match dropBytes? offset text with
  | some rest => atBoundary rest
  | none => true

/-- The number of bytes of a word at the start of a text, where no longer name goes on. -/
def wordSize? (word text : List Char) : Option Nat :=
  if startsWith word text && boundaryAt text (byteLength word) then some (byteLength word) else none

/-- The offset behind a star that stands behind white space at an offset, or that offset itself if no
longer name goes on there. -/
def starOrBoundary (text : List Char) (offset : Nat) : Checked (Option Nat) := do
  let rest ← dropBytes? offset text
  let behind ← dropBytes? (offset + spaceSize rest) text
  if startsWith ['*'] behind then some (some (offset + spaceSize rest + 1))
  else if boundaryAt text offset then some (some offset)
  else some none

/-- `function` at an offset, with a star for a generator. -/
def functionFrom (text : List Char) (offset : Nat) : Checked (Option Extent) := do
  let rest ← dropBytes? offset text
  if startsWith Scan.functionWord rest then
    let stop ← starOrBoundary text (offset + byteLength Scan.functionWord)
    some (stop.map .whole)
  else some none

/-- The head of a function. -/
def functionHead (text : List Char) : Checked (Option Extent) :=
  match afterSpelling? Scan.asyncWord text with
  | some rest =>
    if spaceSize rest == 0 then some none
    else functionFrom text (byteLength Scan.asyncWord + spaceSize rest)
  | none => functionFrom text 0

/-- `yield`, with a star for a delegation. -/
def yieldHead (text : List Char) : Checked (Option Extent) :=
  if startsWith Scan.yieldWord text then do
    let stop ← starOrBoundary text (byteLength Scan.yieldWord)
    some (stop.map .whole)
  else some none

/-- The number of bytes of the keyword part of a loop head: `for`, or `for await`. -/
def forWordsSize (text : List Char) : Checked (Option Nat) :=
  match wordSize? Scan.forWord text with
  | none => some none
  | some size => do
    let rest ← dropBytes? size text
    if 0 < spaceSize rest then
      let behind ← dropBytes? (size + spaceSize rest) text
      match wordSize? Scan.awaitWord behind with
      | some more => some (some (size + spaceSize rest + more))
      | none => some (some size)
    else some (some size)

/-- The head of a loop up to and with its opening parenthesis. -/
def forHead (text : List Char) : Checked (Option Extent) := do
  match ← forWordsSize text with
  | none => some none
  | some stop =>
    let rest ← dropBytes? stop text
    let behind ← dropBytes? (stop + spaceSize rest) text
    if startsWith ['('] behind then some (some ⟨stop + spaceSize rest + 1, 0, stop⟩) else some none

/-- The first of some words that the text starts with, if white space follows it. -/
def wordBeforeSpace (text : List Char) : List (List Char) → Checked (Option Extent)
  | [] => some none
  | word :: words =>
    match wordSize? word text with
    | none => wordBeforeSpace text words
    | some size => do
      let rest ← dropBytes? size text
      match rest with
      | c :: _ => if isSpace c then some (some (.whole size)) else wordBeforeSpace text words
      | [] => wordBeforeSpace text words

/-- `export default`. -/
def exportDefault (text : List Char) : Checked (Option Extent) :=
  match wordSize? Scan.exportWord text with
  | none => some none
  | some size => do
    let rest ← dropBytes? size text
    if spaceSize rest == 0 then some none
    else
      let behind ← dropBytes? (size + spaceSize rest) text
      some ((wordSize? Scan.defaultWord behind).map fun more => .whole (size + spaceSize rest + more))

/-- The number of bytes of the longest name at the start of a text. -/
def nameSize? : List Char → Option Nat
  | [] => none
  | c :: text =>
    if isNameStart c then some (c.utf8Size + firstOffset (fun c => !isNamePart c) text) else none

/-- A jump with its label on the same line. -/
def jump (word text : List Char) : Checked (Option Extent) :=
  match wordSize? word text with
  | none => some none
  | some stop => do
    let rest ← dropBytes? stop text
    let gap := ((utf8 rest).takeWhile fun b => b == ' '.toUInt8 || b == '\t'.toUInt8).length
    if 0 < gap then
      let behind ← dropBytes? (stop + gap) text
      match nameSize? behind with
      | some size => some (some ⟨stop + gap + size, stop + gap, stop + gap + size⟩)
      | none => some (some ⟨stop, stop, stop⟩)
    else some (some ⟨stop, stop, stop⟩)

theorem firstOffset_eq (isMember : Char → Bool) (text : List Char) :
    firstOffset (fun c => !isMember c) text = byteLength (text.takeWhile isMember) := by
  induction text with
  | nil => rfl
  | cons c text ih =>
    cases hc : isMember c with
    | true => simp [firstOffset, hc, ih]
    | false => simp [firstOffset, hc, byteLength]

theorem spaceSize_eq (text : List Char) : spaceSize text = byteLength (leadingSpace text) :=
  firstOffset_eq isSpace text

theorem isEmpty_iff_byteLength (text : List Char) : (byteLength text == 0) = text.isEmpty := by
  cases text with
  | nil => rfl
  | cons c text =>
    have hpos := byteLength_pos (List.cons_ne_nil c text)
    rw [List.isEmpty_cons, beq_eq_false_iff_ne]
    omega

/-- A slice behind a piece of text and some more bytes is a slice of the text behind that piece. -/
theorem dropBytes?_append_add (front rest : List Char) (offset : Nat) :
    dropBytes? (byteLength front + offset) (front ++ rest) = dropBytes? offset rest := by
  induction front with
  | nil => rw [byteLength, Nat.zero_add, List.nil_append]
  | cons c front ih => rw [byteLength_cons, Nat.add_assoc, List.cons_append, dropBytes?_cons, ih]

/-- White space at an offset is passed over without fault. -/
theorem dropBytes?_space (front rest : List Char) :
    dropBytes? (byteLength front + spaceSize rest) (front ++ rest) = some (afterSpace rest) := by
  rw [dropBytes?_append_add, spaceSize_eq]
  calc dropBytes? (byteLength (leadingSpace rest)) rest
      = dropBytes? (byteLength (leadingSpace rest)) (leadingSpace rest ++ afterSpace rest) := by
        rw [leadingSpace_append]
    _ = some (afterSpace rest) := dropBytes?_append _ _

theorem boundaryAt_append (front rest : List Char) :
    boundaryAt (front ++ rest) (byteLength front) = atBoundary rest := by
  rw [boundaryAt, dropBytes?_append]

/-- The size of a word is found where the word is. -/
theorem wordSize?_eq (word text : List Char) :
    wordSize? word text = (afterWord? word text).map fun _ => byteLength word := by
  unfold wordSize? startsWith afterWord?
  cases hs : afterSpelling? word text with
  | none => rfl
  | some rest =>
    obtain rfl := eq_append_of_afterSpelling? hs
    rw [boundaryAt_append, Option.filter_some]
    cases atBoundary rest <;> rfl

theorem startsWith_singleton (c : Char) (text : List Char) :
    startsWith [c] text = (text.head? == some c) := by
  cases text with
  | nil => rfl
  | cons d text =>
    rw [startsWith, afterSpelling?, List.head?_cons]
    by_cases h : c = d
    · simp [h, afterSpelling?]
    · have hne : ¬ d = c := fun he => h he.symm
      simp [h, hne]

theorem starOrBoundary_append (front rest : List Char) :
    starOrBoundary (front ++ rest) (byteLength front) =
      some ((Scan.starOrBoundary? rest).map fun star => byteLength front + byteLength star) := by
  have hdrop := dropBytes?_append front rest
  have hspace := dropBytes?_space front rest
  simp only [starOrBoundary, hdrop, hspace, Option.bind_eq_bind, Option.bind_some,
    startsWith_singleton, boundaryAt_append, Scan.starOrBoundary?]
  -- without a star only the boundary counts
  have hbare : (if atBoundary rest = true then some (some (byteLength front)) else some none) =
      some ((if atBoundary rest = true then some [] else none).map fun star : List Char =>
        byteLength front + byteLength star) := by
    cases atBoundary rest <;> rfl
  cases hs : afterSpace rest with
  | nil => exact hbare
  | cons c behind =>
    by_cases hc : c = '*'
    · have hstar : byteLength ['*'] = 1 := rfl
      simp [hc, byteLength_append, spaceSize_eq, hstar, Nat.add_assoc]
    · simpa [hc] using hbare

theorem functionFrom_append (front rest : List Char) :
    functionFrom (front ++ rest) (byteLength front) =
      some ((Scan.plainFunction? rest).map fun head =>
        .whole (byteLength front + byteLength head)) := by
  simp only [functionFrom, dropBytes?_append, Option.bind_eq_bind, Option.bind_some,
    Scan.plainFunction?]
  cases hs : afterSpelling? Scan.functionWord rest with
  | none => simp [startsWith, hs]
  | some behind =>
    have hstarts : startsWith Scan.functionWord rest = true := by rw [startsWith, hs]; rfl
    obtain rfl := eq_append_of_afterSpelling? hs
    have hstar := starOrBoundary_append (front ++ Scan.functionWord) behind
    rw [List.append_assoc, byteLength_append] at hstar
    rw [if_pos hstarts, hstar]
    cases hb : Scan.starOrBoundary? behind with
    | none => simp [hb]
    | some star => simp [hb, byteLength_append, Nat.add_assoc]

theorem functionHead_eq (text : List Char) :
    functionHead text = some ((Scan.functionHead text).map Lexeme.extent) := by
  unfold functionHead Scan.functionHead
  cases hs : afterSpelling? Scan.asyncWord text with
  | none =>
    have hfunction := functionFrom_append [] text
    rw [byteLength, List.nil_append] at hfunction
    simp [hfunction, Function.comp_def]
  | some rest =>
    obtain rfl := eq_append_of_afterSpelling? hs
    simp only [spaceSize_eq, isEmpty_iff_byteLength]
    split
    · rfl
    · have hfunction := functionFrom_append (Scan.asyncWord ++ leadingSpace rest) (afterSpace rest)
      rw [List.append_assoc, leadingSpace_append, byteLength_append] at hfunction
      rw [hfunction]
      simp [Function.comp_def, byteLength_append, Nat.add_assoc]

theorem yieldHead_eq (text : List Char) :
    yieldHead text = some ((Scan.yieldHead text).map Lexeme.extent) := by
  unfold yieldHead Scan.yieldHead
  cases hs : afterSpelling? Scan.yieldWord text with
  | none => simp [startsWith, hs]
  | some rest =>
    have hstarts : startsWith Scan.yieldWord text = true := by rw [startsWith, hs]; rfl
    obtain rfl := eq_append_of_afterSpelling? hs
    rw [if_pos hstarts, starOrBoundary_append]
    cases hb : Scan.starOrBoundary? rest with
    | none => simp [hb]
    | some star => simp [hb, byteLength_append]

theorem forWordsSize_eq (text : List Char) :
    forWordsSize text = some ((Scan.forWords? text).map fun (words, _) => byteLength words) := by
  unfold forWordsSize Scan.forWords?
  rw [wordSize?_eq]
  cases hw : afterWord? Scan.forWord text with
  | none => rfl
  | some rest =>
    obtain rfl := eq_append_of_afterWord? hw
    have hspace := dropBytes?_space Scan.forWord rest
    have hempty := isEmpty_iff_byteLength (leadingSpace rest)
    rw [← spaceSize_eq] at hempty
    simp only [Option.map_some, dropBytes?_append, hspace, Option.bind_eq_bind, Option.bind_some,
      wordSize?_eq, ← hempty]
    by_cases hs : spaceSize rest = 0
    · simp [hs]
    · have hpos : 0 < spaceSize rest := Nat.pos_of_ne_zero hs
      simp only [hpos, if_true, beq_eq_false_iff_ne.mpr hs, Bool.false_eq_true, if_false]
      cases afterWord? Scan.awaitWord (afterSpace rest) with
      | none => rfl
      | some behind => simp [byteLength_append, spaceSize_eq, Nat.add_assoc]

theorem forHead_eq (text : List Char) :
    forHead text = some ((Scan.forHead text).map Lexeme.extent) := by
  unfold forHead Scan.forHead
  rw [forWordsSize_eq]
  cases hw : Scan.forWords? text with
  | none => rfl
  | some found =>
    obtain ⟨words, rest⟩ := found
    obtain rfl := Scan.eq_append_of_forWords? hw
    have hspace := dropBytes?_space words rest
    simp only [Option.map_some, dropBytes?_append, hspace, Option.bind_eq_bind, Option.bind_some,
      startsWith_singleton]
    cases hs : afterSpace rest with
    | nil => rfl
    | cons c behind =>
      by_cases hc : c = '('
      · have hopen : '('.utf8Size = 1 := rfl
        simp [hc, Lexeme.extent, Lexeme.size, Lexeme.valueStart, Lexeme.valueStop, Lexeme.raw,
          byteLength_append, spaceSize_eq, hopen, byteLength, Nat.add_assoc]
      · simp [hc]

theorem wordBeforeSpace_eq (text : List Char) (words : List (List Char)) :
    wordBeforeSpace text words = some ((Scan.wordBeforeSpace words text).map Lexeme.extent) := by
  unfold Scan.wordBeforeSpace
  induction words with
  | nil => rfl
  | cons word words ih =>
    rw [wordBeforeSpace, wordSize?_eq, List.findSome?_cons, ih]
    cases hw : afterWord? word text with
    | none => rfl
    | some rest =>
      have ht := eq_append_of_afterWord? hw
      rw [Option.map_some]
      conv => lhs; simp only [ht, dropBytes?_append, Option.bind_eq_bind, Option.bind_some]
      cases rest with
      | nil => rw [ht]
      | cons c rest =>
        cases hc : isSpace c with
        | true => simp [hc]
        | false => simp [hc, ht]

theorem exportDefault_eq (text : List Char) :
    exportDefault text = some ((Scan.exportDefault text).map Lexeme.extent) := by
  unfold exportDefault Scan.exportDefault
  rw [wordSize?_eq]
  cases hw : afterWord? Scan.exportWord text with
  | none => rfl
  | some rest =>
    obtain rfl := eq_append_of_afterWord? hw
    simp only [Option.map_some, dropBytes?_append, Option.bind_eq_bind, Option.bind_some,
      dropBytes?_space, wordSize?_eq]
    rw [spaceSize_eq, isEmpty_iff_byteLength]
    split
    · rfl
    · cases afterWord? Scan.defaultWord (afterSpace rest) with
      | none => rfl
      | some behind => simp [byteLength_append, Nat.add_assoc]

theorem nameSize?_eq (text : List Char) : nameSize? text = (Scan.name? text).map byteLength := by
  cases text with
  | nil => rfl
  | cons c text =>
    rw [nameSize?, Scan.name?, firstOffset_eq]
    split
    · rw [Option.map_some, byteLength_cons]
    · rfl

/-- A run of ASCII characters is as long in bytes as in characters. -/
theorem length_takeWhile_utf8 {isByte : UInt8 → Bool} {isMember : Char → Bool}
    (ha : ∀ c : Char, c.toNat < 128 → isByte c.toUInt8 = isMember c)
    (hw : ∀ b : UInt8, 128 ≤ b.toNat → isByte b = false)
    (hm : ∀ c, isMember c = true → c.toNat < 128) (text : List Char) :
    ((utf8 text).takeWhile isByte).length = byteLength (text.takeWhile isMember) := by
  induction text with
  | nil => rfl
  | cons c text ih =>
    rcases utf8EncodeChar_cases c with ⟨hc, -⟩ | ⟨hc, hwide⟩
    · rw [utf8_cons_of_ascii hc, List.takeWhile_cons, List.takeWhile_cons, ha c hc]
      split
      · rw [List.length_cons, ih, byteLength_cons, utf8Size_of_ascii hc, Nat.add_comm]
      · rfl
    · obtain ⟨first, others, he⟩ := exists_utf8EncodeChar_eq_cons c
      have hfirst := hw first (hwide first (he ▸ List.mem_cons_self))
      have hc' : isMember c = false := by
        refine Bool.eq_false_iff.mpr fun h => ?_
        have hlt := hm c h
        omega
      rw [utf8_cons, he, List.cons_append, List.takeWhile_cons, List.takeWhile_cons, hfirst, hc']
      rfl

theorem jump_eq (word text : List Char) :
    jump word text = some ((Scan.jump word text).map Lexeme.extent) := by
  unfold jump Scan.jump
  rw [wordSize?_eq]
  cases hw : afterWord? word text with
  | none => rfl
  | some rest =>
    obtain rfl := eq_append_of_afterWord? hw
    -- the gap is made of one-byte characters, so its bytes are its characters
    have hgap : ((utf8 rest).takeWhile fun b => b == ' '.toUInt8 || b == '\t'.toUInt8).length =
        byteLength (rest.takeWhile Scan.isGap) := by
      refine length_takeWhile_utf8 (fun c hc => ?_) (fun b hb => ?_) (fun c hc => ?_) rest
      · rw [toUInt8_beq hc (by decide), toUInt8_beq hc (by decide), Scan.isGap]
      · rw [beq_toUInt8_of_wide hb (by decide), beq_toUInt8_of_wide hb (by decide), Bool.or_self]
      · simp only [Scan.isGap, Bool.or_eq_true, beq_iff_eq] at hc
        rcases hc with rfl | rfl <;> decide
    have hdrop : dropBytes? (byteLength word + byteLength (rest.takeWhile Scan.isGap)) (word ++ rest) =
        some (rest.dropWhile Scan.isGap) := by
      rw [dropBytes?_append_add]
      calc dropBytes? (byteLength (rest.takeWhile Scan.isGap)) rest
          = dropBytes? (byteLength (rest.takeWhile Scan.isGap))
              (rest.takeWhile Scan.isGap ++ rest.dropWhile Scan.isGap) := by
            rw [List.takeWhile_append_dropWhile]
        _ = some (rest.dropWhile Scan.isGap) := dropBytes?_append _ _
    have hempty := isEmpty_iff_byteLength (rest.takeWhile Scan.isGap)
    simp only [Option.map_some, dropBytes?_append, hgap, hdrop, Option.bind_eq_bind, Option.bind_some,
      nameSize?_eq, ← hempty]
    by_cases hs : byteLength (rest.takeWhile Scan.isGap) = 0
    · simp [hs, Lexeme.extent, Lexeme.size, Lexeme.valueStart, Lexeme.valueStop, Lexeme.raw]
    · have hpos : 0 < byteLength (rest.takeWhile Scan.isGap) := Nat.pos_of_ne_zero hs
      simp only [hpos, if_true, beq_eq_false_iff_ne.mpr hs, Bool.false_eq_true, if_false]
      cases Scan.name? (rest.dropWhile Scan.isGap) with
      | none => simp [Lexeme.extent, Lexeme.size, Lexeme.valueStart, Lexeme.valueStop, Lexeme.raw]
      | some label =>
        simp [Lexeme.extent, Lexeme.size, Lexeme.valueStart, Lexeme.valueStop, Lexeme.raw,
          byteLength_append, Nat.add_assoc]

end ByteScan

end ScriptTree
