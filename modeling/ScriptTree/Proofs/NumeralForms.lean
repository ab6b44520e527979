import Mathlib.Data.List.Induction
import Mathlib.Data.Nat.Digits.Defs
import Mathlib.Tactic.ByContra
import ScriptTree.Grammar.Expression
import ScriptTree.Proofs.ByteLiterals
import ScriptTree.Proofs.SettledLiterals

/-!
The forms of numeric literals.

The scanner tries a radix before a decimal, takes digits for as long as there are some, and gives up a
point or an exponent that has no digits. It reads the longest piece of text that has one of the forms
below. The value is read from the text again, and is missing if a radix is named and 64 bits are not
enough.
-/

namespace ScriptTree

/-- The radixes that a numeral can name behind a leading zero. -/
inductive Radix where
  | hexadecimal
  | octal
  | binary
  deriving DecidableEq, Repr

namespace Radix

/-- The number of digits. -/
def base : Radix → Nat
  | hexadecimal => 16
  | octal => 8
  | binary => 2

/-- The letters that name a radix. -/
def marks : Radix → List Char
  | hexadecimal => ['x', 'X']
  | octal => ['o', 'O']
  | binary => ['b', 'B']

/-- The digits of a radix. -/
def isDigit : Radix → Char → Bool
  | hexadecimal => isHexDigit
  | octal => isOctalDigit
  | binary => isBinaryDigit

/-- What a digit is worth: its place among the digits of radix 16. -/
def worth (digit : Char) : Nat := ((List.range 16).map Nat.digitChar).idxOf digit.toLower

/-- The integer that a row of digits stands for. -/
def integer (radix : Radix) (digits : List Char) : Nat :=
  Nat.ofDigits radix.base (digits.map worth).reverse

end Radix

namespace NumeralForm

/-- Digits with an optional point: `1`, `1.`, `1.5`, `.5`. -/
inductive IsMantissa : List Char → Prop
  | whole {digits : List Char} (hd : ∀ c ∈ digits, c.isDigit = true) (hne : digits ≠ []) :
      IsMantissa digits
  | point {digits fraction : List Char} (hd : ∀ c ∈ digits, c.isDigit = true) (hne : digits ≠ [])
      (hf : ∀ c ∈ fraction, c.isDigit = true) : IsMantissa (digits ++ '.' :: fraction)
  | fraction {fraction : List Char} (hf : ∀ c ∈ fraction, c.isDigit = true) (hne : fraction ≠ []) :
      IsMantissa ('.' :: fraction)

/-- A letter, an optional sign and digits: `e5`, `E+5`, `e-5`. -/
inductive IsExponent : List Char → Prop
  | intro {mark : Char} {sign digits : List Char} (hm : mark = 'e' ∨ mark = 'E')
      (hs : sign ∈ [[], ['+'], ['-']]) (hd : ∀ c ∈ digits, c.isDigit = true) (hne : digits ≠ []) :
      IsExponent (mark :: (sign ++ digits))

/-- Decimals. -/
inductive IsDecimal : List Char → Prop
  | plain {mantissa : List Char} (hm : IsMantissa mantissa) : IsDecimal mantissa
  | scientific {mantissa exponent : List Char} (hm : IsMantissa mantissa)
      (he : IsExponent exponent) : IsDecimal (mantissa ++ exponent)

/-- Integers that name their radix. -/
inductive IsRadixInteger (radix : Radix) : List Char → Prop
  | intro {mark : Char} {digits : List Char} (hm : mark ∈ radix.marks)
      (hd : ∀ c ∈ digits, radix.isDigit c = true) (hne : digits ≠ []) :
      IsRadixInteger radix ('0' :: mark :: digits)

/-- All forms of numeric literals. -/
def IsNumeral (text : List Char) : Prop := IsDecimal text ∨ ∃ radix, IsRadixInteger radix text

/-- The longest numeral that a text starts with. -/
structure IsLongest (numeral text : List Char) : Prop where
  /-- It is one. -/
  isNumeral : IsNumeral numeral
  /-- The text starts with it. -/
  isPrefix : numeral <+: text
  /-- No other one is longer. -/
  longest : ∀ other, IsNumeral other → other <+: text → other.length ≤ numeral.length

/-- Integers that name their radix and need more than 64 bits. -/
def TooLarge (numeral : List Char) : Prop :=
  ∃ radix, IsRadixInteger radix numeral ∧ 2 ^ 64 ≤ radix.integer (numeral.drop 2)

section Mantissa

variable {digits mantissa rest text : List Char}

/-- Behind the digits at the start of a text is a point, or neither a point nor a digit. -/
theorem exists_digits (text : List Char) : ∃ digits, (∀ c ∈ digits, c.isDigit = true) ∧
    ((∃ rest, text = digits ++ '.' :: rest) ∨
      ∃ rest, text = digits ++ rest ∧ ∀ c ∈ rest.head?, c.isDigit = false ∧ c ≠ '.') := by
  have hsplit := List.takeWhile_append_dropWhile (p := Char.isDigit) (l := text)
  have htake := congrArg (List.takeWhile Char.isDigit) hsplit
  have hstop := (takeWhile_append_eq_iff.mp htake).2
  refine ⟨text.takeWhile Char.isDigit, fun c hc => List.mem_takeWhile_imp hc, ?_⟩
  by_cases hpoint : (text.dropWhile Char.isDigit).head? = some '.'
  · obtain ⟨rest, hrest⟩ := List.head?_eq_some_iff.mp hpoint
    exact .inl ⟨rest, by rw [← hrest, hsplit]⟩
  · exact .inr ⟨_, hsplit.symm, fun c hc => ⟨hstop c hc, fun he => hpoint (he ▸ hc)⟩⟩

theorem mantissa?_point (hd : ∀ c ∈ digits, c.isDigit = true) (rest : List Char) :
    Scan.mantissa? (digits ++ '.' :: rest) =
      if digits.isEmpty && (rest.takeWhile Char.isDigit).isEmpty then none
      else some (digits ++ '.' :: rest.takeWhile Char.isDigit) := by
  have hpoint : Char.isDigit '.' = false := rfl
  have htake : (digits ++ '.' :: rest).takeWhile Char.isDigit = digits := by
    refine takeWhile_append_eq_iff.mpr ⟨hd, fun c hc => ?_⟩
    cases hc
    exact hpoint
  have hdrop : (digits ++ '.' :: rest).dropWhile Char.isDigit = '.' :: rest := by
    rw [List.dropWhile_append_of_pos hd, List.dropWhile_cons_of_neg (by rw [hpoint]; decide)]
  unfold Scan.mantissa?
  simp only [htake, hdrop]

theorem mantissa?_whole (hd : ∀ c ∈ digits, c.isDigit = true)
    (hs : ∀ c ∈ rest.head?, c.isDigit = false ∧ c ≠ '.') :
    Scan.mantissa? (digits ++ rest) = if digits.isEmpty then none else some digits := by
  have htake : (digits ++ rest).takeWhile Char.isDigit = digits :=
    takeWhile_append_eq_iff.mpr ⟨hd, fun c hc => (hs c hc).1⟩
  have hdrop : (digits ++ rest).dropWhile Char.isDigit = rest := by
    have hsplit := List.takeWhile_append_dropWhile (p := Char.isDigit) (l := digits ++ rest)
    rw [htake] at hsplit
    exact List.append_cancel_left hsplit
  unfold Scan.mantissa?
  simp only [htake, hdrop]
  split
  · exact absurd rfl (hs '.' rfl).2
  · rfl

theorem isMantissa_of_mantissa? (h : Scan.mantissa? text = some mantissa) : IsMantissa mantissa := by
  obtain ⟨digits, hd, ⟨rest, rfl⟩ | ⟨rest, rfl, hs⟩⟩ := exists_digits text
  · rw [mantissa?_point hd] at h
    split at h
    · cases h
    · rename_i hne
      cases h
      have hf : ∀ c ∈ rest.takeWhile Char.isDigit, c.isDigit = true :=
        fun c hc => List.mem_takeWhile_imp hc
      cases digits with
      | nil => exact .fraction hf fun he => hne (by rw [he]; rfl)
      | cons d digits => exact .point hd (List.cons_ne_nil d digits) hf
  · rw [mantissa?_whole hd hs] at h
    split at h
    · cases h
    · rename_i hne
      cases h
      exact .whole hd fun he => hne (List.isEmpty_iff.mpr he)

/-- No mantissa at the start of a text is longer than the one that is read. -/
theorem IsMantissa.exists_mantissa? (h : IsMantissa mantissa) (rest : List Char) :
    ∃ found, Scan.mantissa? (mantissa ++ rest) = some found ∧ mantissa.length ≤ found.length := by
  have hpointed (digits : List Char) {fraction : List Char} (hd : ∀ c ∈ digits, c.isDigit = true)
      (hf : ∀ c ∈ fraction, c.isDigit = true) (hne : digits ≠ [] ∨ fraction ≠ []) :
      ∃ found, Scan.mantissa? (digits ++ '.' :: (fraction ++ rest)) = some found ∧
        (digits ++ '.' :: fraction).length ≤ found.length := by
    refine ⟨digits ++ '.' :: (fraction ++ rest.takeWhile Char.isDigit), ?_, by simp⟩
    rw [mantissa?_point hd, List.takeWhile_append_of_pos hf, if_neg]
    rw [Bool.and_eq_true, List.isEmpty_iff, List.isEmpty_iff, List.append_eq_nil_iff]
    rintro ⟨hdigits, hfraction, -⟩
    rcases hne with hne | hne
    · exact hne hdigits
    · exact hne hfraction
  cases h with
  | point hd hne hf =>
    rw [List.append_assoc]
    exact hpointed _ hd hf (.inl hne)
  | fraction hf hne => exact hpointed [] nofun hf (.inr hne)
  | whole hd hne =>
    -- there may be more digits behind, and a point behind them
    obtain ⟨more, hmore, hcases⟩ := exists_digits rest
    have hall : ∀ c ∈ mantissa ++ more, c.isDigit = true := List.forall_mem_append.mpr ⟨hd, hmore⟩
    have hsome : (mantissa ++ more).isEmpty = false :=
      List.isEmpty_eq_false_iff.mpr (List.append_ne_nil_of_left_ne_nil hne more)
    rcases hcases with ⟨rest, rfl⟩ | ⟨rest, rfl, hs⟩
    · refine ⟨mantissa ++ more ++ '.' :: rest.takeWhile Char.isDigit, ?_, ?_⟩
      · rw [← List.append_assoc, mantissa?_point hall, hsome, Bool.false_and,
          if_neg Bool.false_ne_true]
      · rw [List.append_assoc, List.length_append]
        omega
    · refine ⟨mantissa ++ more, ?_, ?_⟩
      · rw [← List.append_assoc, mantissa?_whole hall hs, hsome, if_neg Bool.false_ne_true]
      · rw [List.length_append]
        omega

/-- A mantissa is read as it is if neither a digit nor a point follows. -/
theorem IsMantissa.mantissa?_append (h : IsMantissa mantissa)
    (hs : ∀ c ∈ rest.head?, c.isDigit = false ∧ c ≠ '.') :
    Scan.mantissa? (mantissa ++ rest) = some mantissa := by
  have hrun {digits : List Char} (hd : ∀ c ∈ digits, c.isDigit = true) :
      (digits ++ rest).takeWhile Char.isDigit = digits :=
    takeWhile_append_eq_iff.mpr ⟨hd, fun c hc => (hs c hc).1⟩
  cases h with
  | whole hd hne =>
    rw [mantissa?_whole hd hs, if_neg fun he => hne (List.isEmpty_iff.mp he)]
  | point hd hne hf =>
    rw [List.append_assoc, List.cons_append, mantissa?_point hd, hrun hf,
      List.isEmpty_eq_false_iff.mpr hne, Bool.false_and, if_neg Bool.false_ne_true]
  | @fraction fraction hf hne =>
    have hread := @mantissa?_point [] nofun (fraction ++ rest)
    rw [hrun hf, List.isEmpty_eq_false_iff.mpr hne, Bool.and_false,
      if_neg Bool.false_ne_true] at hread
    exact hread

end Mantissa

section Exponent

variable {exponent digits sign : List Char}

theorem signOf_mem (text : List Char) : Scan.signOf text ∈ [[], ['+'], ['-']] := by
  unfold Scan.signOf
  split <;> decide

theorem signOf_digits (hs : sign ∈ [[], ['+'], ['-']]) (hd : ∀ c ∈ digits, c.isDigit = true)
    (hne : digits ≠ []) (rest : List Char) : Scan.signOf (sign ++ (digits ++ rest)) = sign := by
  obtain ⟨d, digits, rfl⟩ := List.exists_cons_of_ne_nil hne
  simp only [List.mem_cons, List.not_mem_nil, or_false] at hs
  rcases hs with rfl | rfl | rfl
  · have hdigit := hd d List.mem_cons_self
    unfold Scan.signOf
    split
    · rename_i heq
      cases heq
      cases hdigit
    · rename_i heq
      cases heq
      cases hdigit
    · rfl
  · rfl
  · rfl

theorem isExponent_exponent (text : List Char) :
    Scan.exponent text = [] ∨ IsExponent (Scan.exponent text) := by
  cases text with
  | nil => exact .inl rfl
  | cons mark text =>
    rw [Scan.exponent_cons]
    split
    · rename_i hm
      split
      · exact .inl rfl
      · rename_i hne
        refine .inr (.intro ?_ (signOf_mem text) (fun c hc => List.mem_takeWhile_imp hc) ?_)
        · simpa using hm
        · exact fun he => hne (List.isEmpty_iff.mpr he)
    · exact .inl rfl

/-- No exponent at the start of a text is longer than the one that is read. -/
theorem IsExponent.length_le (h : IsExponent exponent) (rest : List Char) :
    exponent.length ≤ (Scan.exponent (exponent ++ rest)).length := by
  cases h with
  | @intro mark sign digits hm hs hd hne =>
    have hmark : (mark == 'e' || mark == 'E') = true := by simpa using hm
    have hsome : (digits ++ rest.takeWhile Char.isDigit).isEmpty = false :=
      List.isEmpty_eq_false_iff.mpr (List.append_ne_nil_of_left_ne_nil hne _)
    rw [List.cons_append, List.append_assoc, Scan.exponent_cons, if_pos hmark,
      signOf_digits hs hd hne, List.drop_left, List.takeWhile_append_of_pos hd, hsome,
      if_neg Bool.false_ne_true]
    simp only [List.length_cons, List.length_append]
    omega

end Exponent

section Decimal

variable {decimal text : List Char}

/-- The decimal at the start of a text. -/
def decimal? (text : List Char) : Option (List Char) :=
  (Scan.mantissa? text).map fun mantissa =>
    mantissa ++ Scan.exponent (text.drop mantissa.length)

theorem isDecimal_of_decimal? (h : decimal? text = some decimal) : IsDecimal decimal := by
  obtain ⟨mantissa, hm, rfl⟩ := Option.map_eq_some_iff.mp h
  have hmantissa := isMantissa_of_mantissa? hm
  rcases isExponent_exponent (text.drop mantissa.length) with he | he
  · rw [he, List.append_nil]
    exact .plain hmantissa
  · exact .scientific hmantissa he

/-- No decimal at the start of a text is longer than the one that is read. -/
theorem IsDecimal.exists_decimal? (h : IsDecimal decimal) (rest : List Char) :
    ∃ found, decimal? (decimal ++ rest) = some found ∧ decimal.length ≤ found.length := by
  cases h with
  | plain hm =>
    obtain ⟨found, hf, hle⟩ := hm.exists_mantissa? rest
    refine ⟨_, by rw [decimal?, hf, Option.map_some], ?_⟩
    rw [List.length_append]
    omega
  | @scientific mantissa exponent hm he =>
    have hread : Scan.mantissa? (mantissa ++ (exponent ++ rest)) = some mantissa := by
      refine hm.mantissa?_append fun c hc => ?_
      cases he with
      | intro hmark hs hd hne =>
        cases hc
        rcases hmark with rfl | rfl <;> decide
    have hle := he.length_le rest
    refine ⟨_, by rw [decimal?, List.append_assoc, hread, Option.map_some, List.drop_left], ?_⟩
    rw [List.length_append, List.length_append]
    omega

end Decimal

section Radixes

variable {radix : Radix} {mark : Char} {numeral digits text : List Char}

/-- The scanner and the reading of values know the letters of a radix alike. -/
theorem radix_of_mem (h : mark ∈ radix.marks) : Scan.radixDigit? mark = some radix.isDigit ∧
    Numeral.radixOf? mark = some radix.base := by
  cases radix <;> simp only [Radix.marks, List.mem_cons, List.not_mem_nil, or_false] at h <;>
    rcases h with rfl | rfl <;> exact ⟨rfl, rfl⟩

/-- No other letter names one. -/
theorem no_radix_of_notMem (h : ∀ radix : Radix, mark ∉ radix.marks) :
    Scan.radixDigit? mark = none ∧ Numeral.radixOf? mark = none := by
  have hx := h .hexadecimal
  have ho := h .octal
  have hb := h .binary
  simp only [Radix.marks, List.mem_cons, List.not_mem_nil, or_false] at hx ho hb
  simp [Scan.radixDigit?, Numeral.radixOf?, hx, ho, hb]

theorem exists_radix_of_radixDigit? {isDigit : Char → Bool}
    (h : Scan.radixDigit? mark = some isDigit) :
    ∃ radix : Radix, mark ∈ radix.marks ∧ radix.isDigit = isDigit := by
  by_contra! hno
  have hmarks (radix : Radix) : mark ∉ radix.marks := fun hm =>
    hno radix hm (Option.some.inj ((radix_of_mem hm).1.symm.trans h))
  rw [(no_radix_of_notMem hmarks).1] at h
  cases h

theorem radixInteger?_cons (h : mark ∈ radix.marks) (text : List Char) :
    Scan.radixInteger? ('0' :: mark :: text) =
      if (text.takeWhile radix.isDigit).isEmpty then none
      else some ('0' :: mark :: text.takeWhile radix.isDigit) := by
  rw [Scan.radixInteger?, (radix_of_mem h).1]
  rfl

/-- An integer that names its radix is read with all its digits. -/
theorem exists_of_radixInteger? (h : Scan.radixInteger? text = some numeral) :
    (∃ radix, IsRadixInteger radix numeral) ∧
      ∃ radix mark rest, mark ∈ Radix.marks radix ∧ text = '0' :: mark :: rest := by
  unfold Scan.radixInteger? at h
  split at h
  · rename_i mark rest
    simp only [Option.bind_eq_bind, Option.bind_eq_some_iff] at h
    obtain ⟨isDigit, hr, h⟩ := h
    obtain ⟨radix, hmark, rfl⟩ := exists_radix_of_radixDigit? hr
    refine ⟨?_, radix, mark, rest, hmark, rfl⟩
    split at h
    · cases h
    · rename_i hne
      cases h
      exact ⟨radix, .intro hmark (fun c hc => List.mem_takeWhile_imp hc)
        fun he => hne (List.isEmpty_iff.mpr he)⟩
  · cases h

theorem IsRadixInteger.exists_radixInteger? (h : IsRadixInteger radix numeral) (rest : List Char) :
    ∃ found, Scan.radixInteger? (numeral ++ rest) = some found ∧
      numeral.length ≤ found.length := by
  cases h with
  | @intro mark digits hm hd hne =>
    have hsome : (digits ++ rest.takeWhile radix.isDigit).isEmpty = false :=
      List.isEmpty_eq_false_iff.mpr (List.append_ne_nil_of_left_ne_nil hne _)
    rw [List.cons_append, List.cons_append, radixInteger?_cons hm,
      List.takeWhile_append_of_pos hd, hsome, if_neg Bool.false_ne_true]
    refine ⟨_, rfl, ?_⟩
    simp only [List.length_cons, List.length_append]
    omega

/-- In front of the letter of a radix no decimal goes on behind the zero. -/
theorem decimal?_of_mark (h : mark ∈ radix.marks) (text : List Char) :
    decimal? ('0' :: mark :: text) = some ['0'] := by
  obtain ⟨-, hdigit, hpoint, he, hE⟩ := Scan.radixDigit?_isNameStart (radix_of_mem h).1
  have hzero : ∀ c ∈ ['0'], c.isDigit = true := List.forall_mem_singleton.mpr rfl
  have hread : Scan.mantissa? ('0' :: mark :: text) = some ['0'] := by
    have hstop : ∀ c ∈ (mark :: text).head?, c.isDigit = false ∧ c ≠ '.' := by
      intro c hc
      cases hc
      exact ⟨hdigit, hpoint⟩
    exact mantissa?_whole hzero hstop
  have hexponent : Scan.exponent (mark :: text) = [] := by
    rw [Scan.exponent_cons, if_neg (by simp [he, hE])]
  rw [decimal?, hread, Option.map_some]
  exact congrArg (fun exponent => some ('0' :: exponent)) hexponent

/-- A decimal does not name a radix. -/
theorem IsDecimal.notMem_marks (h : IsDecimal ('0' :: mark :: text)) : mark ∉ radix.marks := by
  intro hm
  obtain ⟨found, hf, hle⟩ := h.exists_decimal? []
  rw [List.append_nil, decimal?_of_mark hm] at hf
  cases hf
  simp at hle

end Radixes

section Longest

variable {numeral text : List Char}

theorem isNumeral_of_numeral? (h : Scan.numeral? text = some numeral) : IsNumeral numeral := by
  unfold Scan.numeral? at h
  split at h
  · rename_i hr
    cases h
    exact .inr (exists_of_radixInteger? hr).1
  · exact .inl (isDecimal_of_decimal? h)

/-- No numeral at the start of a text is longer than the one that is read. -/
theorem IsNumeral.exists_numeral? (h : IsNumeral numeral) (rest : List Char) :
    ∃ found, Scan.numeral? (numeral ++ rest) = some found ∧ numeral.length ≤ found.length := by
  unfold Scan.numeral?
  rcases h with hdecimal | ⟨radix, hradix⟩
  · obtain ⟨found, hf, hle⟩ := hdecimal.exists_decimal? rest
    split
    · -- the radix goes before, and the decimal is the zero in front
      rename_i integer hr
      obtain ⟨⟨_, hinteger⟩, radix, mark, text, hmark, htext⟩ := exists_of_radixInteger? hr
      rw [htext, decimal?_of_mark hmark] at hf
      cases hf
      refine ⟨integer, rfl, hle.trans ?_⟩
      cases hinteger with
      | intro hm hd hne => simp
    · exact ⟨found, hf, hle⟩
  · obtain ⟨found, hf, hle⟩ := hradix.exists_radixInteger? rest
    rw [hf]
    exact ⟨found, rfl, hle⟩

/-- What is read is the longest numeral at the start of a text. -/
theorem numeral?_eq_some_iff : Scan.numeral? text = some numeral ↔ IsLongest numeral text := by
  constructor
  · intro h
    refine ⟨isNumeral_of_numeral? h, Scan.numeral?_isPrefix h, ?_⟩
    rintro other ho ⟨rest, rfl⟩
    obtain ⟨found, hf, hle⟩ := ho.exists_numeral? rest
    rw [h] at hf
    cases hf
    exact hle
  · rintro ⟨hn, ⟨rest, rfl⟩, hlongest⟩
    obtain ⟨found, hf, hle⟩ := hn.exists_numeral? rest
    have hprefix := Scan.numeral?_isPrefix hf
    have hge := hlongest found (isNumeral_of_numeral? hf) hprefix
    -- two beginnings of one text that are equally long are the same
    have he : numeral = found :=
      (List.prefix_of_prefix_length_le (List.prefix_append numeral rest) hprefix hle).eq_of_length
        (Nat.le_antisymm hle hge)
    rw [hf, he]

theorem number_eq_some_iff {lexeme : Lexeme} : Scan.number text = some lexeme ↔
    ∃ numeral rest, text = numeral ++ rest ∧ lexeme = .whole numeral ∧ IsLongest numeral text ∧
      ∀ c ∈ rest.head?, isNameStart c = false := by
  unfold Scan.number
  constructor
  · intro h
    split at h
    · rename_i numeral hn
      obtain ⟨rest, rfl⟩ := Scan.numeral?_isPrefix hn
      rw [List.drop_left] at h
      refine ⟨numeral, rest, rfl, ?_⟩
      split at h
      · split at h
        · cases h
        · rename_i hc
          cases h
          exact ⟨rfl, numeral?_eq_some_iff.mp hn, fun d hd => by cases hd; simpa using hc⟩
      · cases h
        exact ⟨rfl, numeral?_eq_some_iff.mp hn, nofun⟩
    · cases h
  · rintro ⟨numeral, rest, rfl, rfl, hn, hs⟩
    rw [numeral?_eq_some_iff.mpr hn]
    dsimp only
    rw [List.drop_left]
    cases rest with
    | nil => rfl
    | cons c rest =>
      have hc := hs c rfl
      simp [hc]

theorem isNumeral_raw {lexeme : Lexeme} (h : Scan.number text = some lexeme) :
    IsNumeral lexeme.raw := by
  obtain ⟨numeral, rest, -, rfl, hn, -⟩ := number_eq_some_iff.mp h
  have hraw : (Lexeme.whole numeral).raw = numeral := by simp [Lexeme.raw, Lexeme.whole]
  rw [hraw]
  exact hn.isNumeral

end Longest

section Value

variable {radix : Radix} {mark : Char} {numeral digits : List Char}

theorem lt_of_isDigit {c : Char} (h : radix.isDigit c = true) : c.toNat < 128 := by
  obtain ⟨mark, hm⟩ : ∃ mark, mark ∈ radix.marks := by
    cases radix <;> exact ⟨_, List.mem_cons_self⟩
  exact ByteScan.radixDigit_ascii (radix_of_mem hm).1 c h

/-- A digit is worth its place among the digits of radix 16. -/
theorem digitValue_eq {c : Char} (h : radix.isDigit c = true) :
    Numeral.digitValue c = Radix.worth c := by
  have hall : ∀ n < 128, radix.isDigit (Char.ofNat n) = true →
      Numeral.digitValue (Char.ofNat n) = Radix.worth (Char.ofNat n) := by
    cases radix <;> decide
  have hc := hall c.toNat (lt_of_isDigit h)
  rw [Char.ofNat_toNat] at hc
  exact hc h

/-- The digits are added up from the left. -/
theorem digitsValue_eq (hd : ∀ c ∈ digits, radix.isDigit c = true) :
    Numeral.digitsValue radix.base digits = radix.integer digits := by
  induction digits using List.reverseRecOn with
  | nil => rfl
  | append_singleton digits c ih =>
    rw [List.forall_mem_append, List.forall_mem_singleton] at hd
    have hvalue : Numeral.digitsValue radix.base (digits ++ [c]) =
        Numeral.digitsValue radix.base digits * radix.base + Numeral.digitValue c := by
      rw [Numeral.digitsValue, List.foldl_append]
      rfl
    have hinteger : radix.integer (digits ++ [c]) =
        Radix.worth c + radix.base * radix.integer digits := by
      rw [Radix.integer, List.map_append, List.reverse_append, List.map_singleton,
        List.reverse_singleton, List.singleton_append, Nat.ofDigits_cons]
      rfl
    rw [hvalue, hinteger, ih hd.1, digitValue_eq hd.2, Nat.mul_comm, Nat.add_comm]

theorem value?_of_mark (hm : mark ∈ radix.marks) (hd : ∀ c ∈ digits, radix.isDigit c = true) :
    Numeral.value? ('0' :: mark :: digits) =
      if radix.integer digits < 2 ^ 64 then some (.ofRatio (radix.integer digits) 1) else none := by
  rw [Numeral.value?, (radix_of_mem hm).2]
  dsimp only
  rw [digitsValue_eq hd]
  rfl

/-- A decimal always has a value. -/
theorem IsDecimal.value?_ne_none (h : IsDecimal numeral) : Numeral.value? numeral ≠ none := by
  unfold Numeral.value?
  split
  · rw [(no_radix_of_notMem fun _ => h.notMem_marks).2]
    nofun
  · nofun

theorem value?_eq_none_iff (h : IsNumeral numeral) :
    Numeral.value? numeral = none ↔ TooLarge numeral := by
  rcases h with hdecimal | ⟨radix, hradix⟩
  · refine iff_of_false hdecimal.value?_ne_none ?_
    rintro ⟨radix, ⟨hm, -, -⟩, -⟩
    exact hdecimal.notMem_marks hm
  · cases hradix with
    | @intro mark digits hm hd hne =>
      rw [value?_of_mark hm hd]
      constructor
      · intro hv
        split at hv
        · cases hv
        · rename_i hlarge
          exact ⟨radix, .intro hm hd hne, Nat.not_lt.mp hlarge⟩
      · rintro ⟨other, ⟨hm', -, -⟩, hlarge⟩
        -- the letter tells the radix
        have hbase : radix.base = other.base :=
          Option.some.inj ((radix_of_mem hm).2.symm.trans (radix_of_mem hm').2)
        have hsame : other.integer digits = radix.integer digits := by
          rw [Radix.integer, Radix.integer, hbase]
        rw [if_neg (Nat.not_lt.mpr (hsame ▸ hlarge))]

/-- The parser takes the value of a numeric literal, or complains that there is none. -/
theorem literal_of_numericLiteral {parser : Parser} {word : Token}
    (hc : parser.lexer.current = some word) (hk : word.kind = .numericLiteral) :
    ParserM.literal parser = match Numeral.value? word.raw.toList with
      | some number => .ok (.literal (.number number) word.raw)
          { parser with lexer := parser.lexer.next .default }
      | none => .error (.rejected (parser.complaint .invalidNumericLiteral)) parser := by
  simp only [ParserM.literal, bind, EStateM.bind, ParserM.run_token hc, hk]
  cases Numeral.value? word.raw.toList <;> rfl

end Value

/-- What is read as a number at the start of a text, and what comes of it. -/
structure ReadsNumerals (text : List Char) : Prop where
  /-- The scanner takes the longest numeral, unless a name starts right behind it. -/
  accepts : ∀ lexeme, Scan.number text = some lexeme ↔
    ∃ numeral rest, text = numeral ++ rest ∧ lexeme = .whole numeral ∧ IsLongest numeral text ∧
      ∀ c ∈ rest.head?, isNameStart c = false
  /-- On bytes it never leaves the text, and takes as many as the longest numeral has. -/
  bytes : ∃ found, ByteScan.number text = some found ∧ ∀ extent, found = some extent ↔
    ∃ numeral rest, text = numeral ++ rest ∧ extent = .whole (byteLength numeral) ∧
      IsLongest numeral text ∧ ∀ c ∈ rest.head?, isNameStart c = false
  /-- The value is missing if a radix is named and 64 bits are not enough, and only then. -/
  value : ∀ lexeme, Scan.number text = some lexeme →
    (Numeral.value? lexeme.raw = none ↔ TooLarge lexeme.raw)
  /-- Then the parser reports it, and else it goes on behind the literal. -/
  reports : ∀ lexeme parser word, Scan.number text = some lexeme →
    parser.lexer.current = some word → word.kind = .numericLiteral →
    word.raw.toList = lexeme.raw →
    ((∃ error state, ParserM.literal parser = .error (.rejected error) state ∧
        error.message.code = 1002) ↔ TooLarge lexeme.raw) ∧
      (¬TooLarge lexeme.raw → ∃ number, ParserM.literal parser =
        .ok (.literal (.number number) word.raw)
          { parser with lexer := parser.lexer.next .default })

/-- Numbers are read, and have values, by their forms. -/
theorem readsNumerals (text : List Char) : ReadsNumerals text where
  accepts := fun _ => number_eq_some_iff
  bytes := by
    refine ⟨_, ByteScan.number_eq text, fun extent => ?_⟩
    rw [Option.map_eq_some_iff]
    constructor
    · rintro ⟨lexeme, h, rfl⟩
      obtain ⟨numeral, rest, htext, rfl, hn, hs⟩ := number_eq_some_iff.mp h
      exact ⟨numeral, rest, htext, Lexeme.extent_whole numeral, hn, hs⟩
    · rintro ⟨numeral, rest, htext, rfl, hn, hs⟩
      exact ⟨.whole numeral, number_eq_some_iff.mpr ⟨numeral, rest, htext, rfl, hn, hs⟩,
        Lexeme.extent_whole numeral⟩
  value := fun _ h => value?_eq_none_iff (isNumeral_raw h)
  reports := by
    intro lexeme parser word h hc hk hraw
    have hvalue := value?_eq_none_iff (isNumeral_raw h)
    rw [literal_of_numericLiteral hc hk, hraw]
    cases hv : Numeral.value? lexeme.raw with
    | none =>
      have hlarge := hvalue.mp hv
      refine ⟨iff_of_true ⟨_, _, rfl, ?_⟩ hlarge, fun hsmall => absurd hlarge hsmall⟩
      rw [Parser.complaint, hc]
      rfl
    | some number =>
      have hsmall : ¬TooLarge lexeme.raw := fun hlarge => by
        rw [hvalue.mpr hlarge] at hv
        cases hv
      exact ⟨iff_of_false (fun ⟨_, _, he, _⟩ => by cases he) hsmall, fun _ => ⟨number, rfl⟩⟩

end NumeralForm

end ScriptTree
