import ScriptTree.Proofs.ByteSlices

/-!
The bytes of a text in UTF-8.

An ASCII character is one byte below 128, and every byte of another character is at least 128. So a
loop over bytes that looks for ASCII characters passes over the bytes of the others one by one, even if
it comes to stand among them behind a backslash.
-/

namespace ScriptTree

/-- The bytes of a text in UTF-8. -/
def utf8 (text : List Char) : List UInt8 := text.flatMap String.utf8EncodeChar

@[simp] theorem utf8_nil : utf8 [] = [] := rfl

theorem utf8_cons (c : Char) (text : List Char) :
    utf8 (c :: text) = String.utf8EncodeChar c ++ utf8 text := List.flatMap_cons

theorem utf8_append (front text : List Char) : utf8 (front ++ text) = utf8 front ++ utf8 text :=
  List.flatMap_append

@[simp] theorem length_utf8 (text : List Char) : (utf8 text).length = byteLength text := by
  induction text with
  | nil => rfl
  | cons c text ih =>
    rw [utf8_cons, List.length_append, ih, String.length_utf8EncodeChar, byteLength_cons]

section Bytes

variable {c d : Char} {b : UInt8} {text : List Char}

theorem utf8Size_of_ascii (h : c.toNat < 128) : c.utf8Size = 1 := by
  rw [Char.utf8Size_eq_one_iff, UInt32.le_iff_toNat_le]
  have hval : c.val.toNat = c.toNat := rfl
  have hbound : (127 : UInt32).toNat = 127 := rfl
  omega

theorem utf8_cons_of_ascii (h : c.toNat < 128) : utf8 (c :: text) = c.toUInt8 :: utf8 text := by
  rw [utf8_cons, String.utf8EncodeChar_eq_singleton (utf8Size_of_ascii h)]
  rfl

theorem toUInt8_inj_of_ascii (hc : c.toNat < 128) (hd : d.toNat < 128)
    (h : c.toUInt8 = d.toUInt8) : c = d := by
  have hn := congrArg UInt8.toNat h
  simp only [Char.toUInt8, UInt32.toNat_toUInt8] at hn
  have hcval : c.val.toNat = c.toNat := rfl
  have hdval : d.val.toNat = d.toNat := rfl
  apply Char.toNat_inj.mp
  omega

/-- Bytes of ASCII characters are told apart as the characters are. -/
theorem toUInt8_beq (hc : c.toNat < 128) (hd : d.toNat < 128) :
    (c.toUInt8 == d.toUInt8) = (c == d) := by
  by_cases h : c = d
  · rw [h, beq_self_eq_true, beq_self_eq_true]
  · have hne : c.toUInt8 ≠ d.toUInt8 := fun he => h (toUInt8_inj_of_ascii hc hd he)
    rw [beq_eq_false_iff_ne.mpr h, beq_eq_false_iff_ne.mpr hne]

theorem toNat_toUInt8 (hd : d.toNat < 128) : d.toUInt8.toNat = d.toNat := by
  have hval : d.val.toNat = d.toNat := rfl
  simp only [Char.toUInt8, UInt32.toNat_toUInt8]
  omega

/-- A byte from 128 on is no ASCII character. -/
theorem beq_toUInt8_of_wide (hb : 128 ≤ b.toNat) (hd : d.toNat < 128) :
    (b == d.toUInt8) = false := by
  refine beq_eq_false_iff_ne.mpr fun he => ?_
  rw [he, toNat_toUInt8 hd] at hb
  omega

/-- All bytes of a character that is not ASCII are at least 128. -/
theorem le_of_mem_utf8EncodeChar (h : 128 ≤ c.toNat) :
    ∀ b ∈ String.utf8EncodeChar c, 128 ≤ b.toNat := by
  -- every byte has been given a mark of at least 128 with `|||`
  have hmark (x mark : UInt8) (hm : 128 ≤ mark.toNat) : 128 ≤ (x ||| mark).toNat := by
    rw [UInt8.toNat_or]
    exact hm.trans Nat.right_le_or
  have hne : c.utf8Size ≠ 1 := by
    rw [ne_eq, Char.utf8Size_eq_one_iff, UInt32.le_iff_toNat_le]
    have hval : c.val.toNat = c.toNat := rfl
    have hbound : (127 : UInt32).toNat = 127 := rfl
    omega
  intro b hb
  rcases Char.utf8Size_eq c with hs | hs | hs | hs
  · exact absurd hs hne
  · rw [String.utf8EncodeChar_eq_cons_cons hs] at hb
    simp only [List.mem_cons, List.not_mem_nil, or_false] at hb
    rcases hb with rfl | rfl
    · exact hmark _ 192 (by decide)
    · exact hmark _ 128 (by decide)
  · rw [String.utf8EncodeChar_eq_cons_cons_cons hs] at hb
    simp only [List.mem_cons, List.not_mem_nil, or_false] at hb
    rcases hb with rfl | rfl | rfl
    · exact hmark _ 224 (by decide)
    · exact hmark _ 128 (by decide)
    · exact hmark _ 128 (by decide)
  · rw [String.utf8EncodeChar_eq_cons_cons_cons_cons hs] at hb
    simp only [List.mem_cons, List.not_mem_nil, or_false] at hb
    rcases hb with rfl | rfl | rfl | rfl
    · exact hmark _ 240 (by decide)
    · exact hmark _ 128 (by decide)
    · exact hmark _ 128 (by decide)
    · exact hmark _ 128 (by decide)

/-- The bytes of a character: a single one for ASCII, else only bytes from 128 on. -/
theorem utf8EncodeChar_cases (c : Char) :
    (c.toNat < 128 ∧ String.utf8EncodeChar c = [c.toUInt8]) ∨
      (128 ≤ c.toNat ∧ ∀ b ∈ String.utf8EncodeChar c, 128 ≤ b.toNat) := by
  rcases Nat.lt_or_ge c.toNat 128 with h | h
  · exact Or.inl ⟨h, String.utf8EncodeChar_eq_singleton (utf8Size_of_ascii h)⟩
  · exact Or.inr ⟨h, le_of_mem_utf8EncodeChar h⟩

theorem exists_utf8EncodeChar_eq_cons (c : Char) :
    ∃ first others, String.utf8EncodeChar c = first :: others := by
  refine List.exists_cons_of_length_pos ?_
  rw [String.length_utf8EncodeChar]
  exact c.utf8Size_pos

/-- A text starts with the byte of an ASCII character if it starts with the character. -/
theorem head?_utf8_eq_iff (hd : d.toNat < 128) :
    (utf8 text).head? = some d.toUInt8 ↔ text.head? = some d := by
  cases text with
  | nil => exact ⟨nofun, nofun⟩
  | cons c text =>
    rcases utf8EncodeChar_cases c with ⟨hc, -⟩ | ⟨hc, hwide⟩
    · rw [utf8_cons_of_ascii hc, List.head?_cons, List.head?_cons, Option.some.injEq,
        Option.some.injEq]
      exact ⟨toUInt8_inj_of_ascii hc hd, fun h => h ▸ rfl⟩
    · obtain ⟨first, others, he⟩ := exists_utf8EncodeChar_eq_cons c
      have hfirst := hwide first (he ▸ List.mem_cons_self)
      rw [utf8_cons, he, List.cons_append, List.head?_cons, List.head?_cons, Option.some.injEq,
        Option.some.injEq]
      constructor
      · intro h
        rw [h, toNat_toUInt8 hd] at hfirst
        omega
      · intro h
        rw [h] at hc
        omega

theorem head?_utf8_beq (hd : d.toNat < 128) :
    ((utf8 text).head? == some d.toUInt8) = (text.head? == some d) := by
  rw [Bool.eq_iff_iff, beq_iff_eq, beq_iff_eq, head?_utf8_eq_iff hd]

/-- The byte behind a piece of text is the first one of what follows. -/
theorem getElem?_utf8_append (front rest : List Char) :
    (utf8 (front ++ rest))[byteLength front]? = (utf8 rest).head? := by
  rw [utf8_append, List.getElem?_append_right (by rw [length_utf8]), length_utf8, Nat.sub_self,
    List.head?_eq_getElem?]

theorem drop_utf8_append (front rest : List Char) :
    (utf8 (front ++ rest)).drop (byteLength front) = utf8 rest := by
  rw [utf8_append, ← length_utf8, List.drop_left]

end Bytes

/-- What a loop over bytes makes of a byte. -/
inductive Verdict (σ : Type) where
  /-- It goes on behind it. -/
  | pass (state : σ)
  /-- It has found the end, of some number of bytes. -/
  | stop (size : Nat)
  /-- There is no match. -/
  | fail

/-- A loop over bytes in which a backslash takes the next byte with it, whatever it is. The result is
the number of bytes before the end that was found, and how many bytes the end has. -/
def scanEscaped {σ : Type} (judge : σ → UInt8 → List UInt8 → Verdict σ) :
    σ → List UInt8 → Option (Nat × Nat)
  | _, [] => none
  | state, b :: bytes =>
    if b == '\\'.toUInt8 then
      match bytes with
      | [] => none
      | _ :: bytes => (scanEscaped judge state bytes).map fun (before, size) => (before + 2, size)
    else match judge state b bytes with
      | .pass state => (scanEscaped judge state bytes).map fun (before, size) => (before + 1, size)
      | .stop size => some (0, size)
      | .fail => none

section Escapes

variable {σ : Type} {judge : σ → UInt8 → List UInt8 → Verdict σ}

/-- Bytes that belong to no ASCII character are passed over. -/
theorem scanEscaped_wide
    (hj : ∀ state b bytes, 128 ≤ b.toNat → judge state b bytes = .pass state)
    {wide : List UInt8} (hw : ∀ b ∈ wide, 128 ≤ b.toNat) (state : σ) (bytes : List UInt8) :
    scanEscaped judge state (wide ++ bytes) =
      (scanEscaped judge state bytes).map fun (before, size) => (before + wide.length, size) := by
  induction wide with
  | nil => simp
  | cons b wide ih =>
    obtain ⟨hb, hw⟩ := List.forall_mem_cons.mp hw
    have hne := beq_toUInt8_of_wide hb (show '\\'.toNat < 128 by decide)
    rw [List.cons_append, scanEscaped.eq_def]
    simp only [hne, hj state b _ hb, ih hw, Option.map_map, Function.comp_def, List.length_cons,
      Bool.false_eq_true, if_false]
    rfl

/-- A backslash takes the next character with it, however many bytes it has. -/
theorem scanEscaped_backslash
    (hj : ∀ state b bytes, 128 ≤ b.toNat → judge state b bytes = .pass state)
    (state : σ) (c : Char) (text : List Char) :
    scanEscaped judge state (utf8 ('\\' :: c :: text)) =
      (scanEscaped judge state (utf8 text)).map fun (before, size) =>
        ('\\'.utf8Size + (c.utf8Size + before), size) := by
  obtain ⟨first, others, he⟩ := exists_utf8EncodeChar_eq_cons c
  have hlength : others.length + 1 = c.utf8Size := by
    rw [← String.length_utf8EncodeChar, he, List.length_cons]
  -- the bytes left of the character are passed over one by one
  have hothers : ∀ b ∈ others, 128 ≤ b.toNat := by
    intro b hb
    rcases utf8EncodeChar_cases c with ⟨-, hone⟩ | ⟨-, hwide⟩
    · rw [he, List.cons.injEq] at hone
      rw [hone.2] at hb
      cases hb
    · exact hwide b (he ▸ List.mem_cons_of_mem _ hb)
  rw [utf8_cons_of_ascii (by decide), utf8_cons, he, List.cons_append, scanEscaped.eq_def]
  simp only [beq_self_eq_true, if_true, scanEscaped_wide hj hothers, Option.map_map,
    Function.comp_def]
  have hslash : '\\'.utf8Size = 1 := rfl
  congr 1
  funext found
  refine Prod.ext ?_ rfl
  dsimp only
  omega

/-- A character other than a backslash is judged by its byte if it is ASCII; any other one is passed
over. -/
theorem scanEscaped_cons
    (hj : ∀ state b bytes, 128 ≤ b.toNat → judge state b bytes = .pass state)
    (state : σ) {c : Char} (hc : c ≠ '\\') (text : List Char) :
    scanEscaped judge state (utf8 (c :: text)) =
      match if c.toNat < 128 then judge state c.toUInt8 (utf8 text) else .pass state with
      | .pass state => (scanEscaped judge state (utf8 text)).map fun (before, size) =>
          (c.utf8Size + before, size)
      | .stop size => some (0, size)
      | .fail => none := by
  rcases utf8EncodeChar_cases c with ⟨ha, -⟩ | ⟨hw, hwide⟩
  · have hne : (c.toUInt8 == '\\'.toUInt8) = false := by
      rw [toUInt8_beq ha (by decide), beq_eq_false_iff_ne]
      exact hc
    rw [utf8_cons_of_ascii ha, scanEscaped.eq_def, if_pos ha, utf8Size_of_ascii ha]
    simp only [hne, Bool.false_eq_true, if_false, Nat.add_comm 1]
  · rw [utf8_cons, scanEscaped_wide hj hwide, String.length_utf8EncodeChar, if_neg (by omega)]
    simp only [Nat.add_comm c.utf8Size]

end Escapes

end ScriptTree
