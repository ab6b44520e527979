import Mathlib.Data.List.GetD
import Mathlib.Data.List.Induction
import Mathlib.Tactic.Linarith
import ScriptTree.Diagnostic.SyntaxError

/-!
Filling in a message.

The arguments of a message go in one after the other, each over the whole text, so an argument may
bring in what looks like the placeholder of a later one. Beside these passes stands the filling in one
walk over the template, where an argument is never looked at again. The two agree exactly if no
placeholder is brought in on the way.
-/

namespace ScriptTree

namespace Template

/-- How often a pattern stands in a text. -/
def occurrences (pattern : List Char) : List Char → Nat
  | [] => 0
  | c :: text =>
    (if pattern.isPrefixOf (c :: text) then 1 else 0) + occurrences pattern text

/-- The argument, one of the first `count`, whose placeholder stands at the head of a text. -/
def holeAt? (count : Nat) (text : List Char) : Option Nat :=
  (List.range count).find? fun index => (placeholder index).isPrefixOf text

/-- Puts all arguments in during one walk over a template, after passing over `skip` characters that
belong to the last placeholder. -/
def fillWalk (arguments : List String) : Nat → List Char → List Char
  | _, [] => []
  | skip + 1, _ :: template => fillWalk arguments skip template
  | 0, c :: template =>
    match holeAt? arguments.length (c :: template) with
    | some index => (arguments.getD index "").toList ++
        fillWalk arguments ((placeholder index).length - 1) template
    | none => c :: fillWalk arguments 0 template

/-- A template in which every placeholder of an argument is replaced by the argument, and all else is
as it was. -/
def fillAtOnce (template : String) (arguments : List String) : String :=
  String.ofList (fillWalk arguments 0 template.toList)

/-- The arguments that are in bring in no placeholder of the next one. -/
def ExposesNone (template : String) (filled : List String) : Prop :=
  occurrences (placeholder filled.length) (fillAtOnce template filled).toList =
    occurrences (placeholder filled.length) template.toList

instance (template : String) (filled : List String) : Decidable (ExposesNone template filled) :=
  inferInstanceAs (Decidable (_ = _))

/-- Whatever argument comes next, the passes give what the one walk gives. -/
def TakesAnyNext (template : String) (filled : List String) : Prop :=
  ∀ next, fill template (filled ++ [next]) = fillAtOnce template (filled ++ [next])

/-! ### Placeholders -/

section Placeholders

variable {index other count : Nat} {text rest : List Char}

theorem placeholder_eq_cons (index : Nat) :
    placeholder index = '\x7b' :: ((toString index).toList ++ ['\x7d']) := rfl

theorem not_brace_of_mem_digits {c : Char} (h : c ∈ (toString index).toList) :
    c ≠ '\x7b' ∧ c ≠ '\x7d' := by
  rw [Nat.toString_eq_ofList_toDigits, String.toList_ofList] at h
  have hc : c.isDigit = true := Nat.isDigit_of_mem_toDigits (by decide) (by decide) h
  constructor
  · rintro rfl
    exact absurd hc (by decide)
  · rintro rfl
    exact absurd hc (by decide)

/-- Behind its first character a placeholder has no opening brace. -/
theorem ne_of_mem_placeholder_tail {c : Char} (h : c ∈ (placeholder index).tail) : c ≠ '\x7b' := by
  rw [placeholder_eq_cons, List.tail_cons, List.mem_append, List.mem_singleton] at h
  obtain h | rfl := h
  · exact (not_brace_of_mem_digits h).1
  · decide

/-- The digits of a placeholder go up to the first closing brace. -/
theorem takeWhile_of_placeholder_isPrefix (h : placeholder index <+: text) :
    text.tail.takeWhile (· != '\x7d') = (toString index).toList := by
  obtain ⟨rest, rfl⟩ := h
  have hd : ∀ c ∈ (toString index).toList, (c != '\x7d') = true := fun c hc =>
    bne_iff_ne.mpr (not_brace_of_mem_digits hc).2
  rw [placeholder_eq_cons, List.cons_append, List.tail_cons, List.append_assoc,
    List.takeWhile_append_of_pos hd]
  simp

/-- At one place stands the placeholder of one argument only. -/
theorem eq_of_placeholder_isPrefix (h : placeholder index <+: text) (ho : placeholder other <+: text) :
    index = other := by
  have hdigits := (takeWhile_of_placeholder_isPrefix h).symm.trans (takeWhile_of_placeholder_isPrefix ho)
  simp only [Nat.toString_eq_ofList_toDigits, String.toList_ofList] at hdigits
  calc index = Nat.ofDigitChars 10 (Nat.toDigits 10 index) 0 := Nat.ofDigitChars_ten_toDigits.symm
    _ = Nat.ofDigitChars 10 (Nat.toDigits 10 other) 0 := by rw [hdigits]
    _ = other := Nat.ofDigitChars_ten_toDigits

theorem not_placeholder_isPrefix {c : Char} (h : c ≠ '\x7b') : ¬ placeholder index <+: c :: text := by
  rw [placeholder_eq_cons, List.cons_prefix_cons]
  exact fun hp => h hp.1.symm

theorem placeholder_isPrefix_of_find? {indices : List Nat}
    (h : (indices.find? fun index => (placeholder index).isPrefixOf text) = some index) :
    placeholder index <+: text := by
  have hp := List.find?_some h
  exact List.isPrefixOf_iff_prefix.mp hp

theorem holeAt?_eq_some_iff :
    holeAt? count text = some index ↔ index < count ∧ placeholder index <+: text := by
  constructor
  · intro h
    have hi := List.mem_range.mp (List.mem_of_find?_eq_some h)
    exact ⟨hi, placeholder_isPrefix_of_find? h⟩
  · rintro ⟨hi, hp⟩
    cases hf : holeAt? count text with
    | none =>
      have hnot := List.find?_eq_none.mp hf index (List.mem_range.mpr hi)
      exact absurd (List.isPrefixOf_iff_prefix.mpr hp) hnot
    | some found =>
      rw [eq_of_placeholder_isPrefix (placeholder_isPrefix_of_find? hf) hp]

theorem holeAt?_eq_none_iff :
    holeAt? count text = none ↔ ∀ index < count, ¬ placeholder index <+: text := by
  simp only [holeAt?, List.find?_eq_none, List.mem_range, List.isPrefixOf_iff_prefix]

/-- A template is empty, begins with the placeholder of one of the first `count` arguments, or begins
with another character. -/
theorem template_induction (count : Nat) {P : List Char → Prop} (nil : P [])
    (hole : ∀ index < count, ∀ rest, P rest → P (placeholder index ++ rest))
    (char : ∀ c rest, holeAt? count (c :: rest) = none → P rest → P (c :: rest)) :
    ∀ text, P text := by
  intro text
  induction hn : text.length using Nat.strong_induction_on generalizing text with
  | _ n ih =>
    cases text with
    | nil => exact nil
    | cons c rest =>
      cases hh : holeAt? count (c :: rest) with
      | none => exact char c rest hh (ih _ (by rw [← hn]; exact Nat.lt_succ_self _) rest rfl)
      | some index =>
        obtain ⟨hi, behind, hb⟩ := holeAt?_eq_some_iff.mp hh
        rw [← hb]
        refine hole index hi behind (ih behind.length ?_ behind rfl)
        have hl := congrArg List.length hb
        simp only [placeholder_eq_cons, List.length_append, List.length_cons] at hl hn
        omega

end Placeholders

/-! ### One pass -/

section Pass

variable {index other : Nat} {pattern replacement front rest text : List Char}

theorem occurrences_cons_of_not {c : Char} (h : ¬ pattern <+: c :: text) :
    occurrences pattern (c :: text) = occurrences pattern text := by
  rw [occurrences, if_neg (fun hp => h (List.isPrefixOf_iff_prefix.mp hp)), Nat.zero_add]

theorem occurrences_le_append (pattern front rest : List Char) :
    occurrences pattern rest ≤ occurrences pattern (front ++ rest) := by
  induction front with
  | nil => exact Nat.le_refl _
  | cons c front ih => exact ih.trans (Nat.le_add_left _ _)

/-- A placeholder does not begin inside a text without opening braces. -/
theorem occurrences_append_of_ne (h : ∀ c ∈ front, c ≠ '\x7b') (rest : List Char) :
    occurrences (placeholder index) (front ++ rest) = occurrences (placeholder index) rest := by
  induction front with
  | nil => rfl
  | cons c front ih =>
    rw [List.cons_append, occurrences_cons_of_not (not_placeholder_isPrefix (h c List.mem_cons_self))]
    exact ih fun d hd => h d (List.mem_cons_of_mem c hd)

theorem occurrences_placeholder (index other : Nat) (rest : List Char) :
    occurrences (placeholder index) (placeholder other ++ rest) =
      (if index = other then 1 else 0) + occurrences (placeholder index) rest := by
  have htail : occurrences (placeholder index) ((placeholder other).tail ++ rest) =
      occurrences (placeholder index) rest :=
    occurrences_append_of_ne (fun c => ne_of_mem_placeholder_tail) rest
  have hhead : (placeholder index).isPrefixOf (placeholder other ++ rest) = decide (index = other) := by
    apply Bool.eq_iff_iff.mpr
    rw [List.isPrefixOf_iff_prefix, decide_eq_true_iff]
    constructor
    · exact fun h => eq_of_placeholder_isPrefix h (List.prefix_append _ _)
    · rintro rfl
      exact List.prefix_append _ _
  change (if (placeholder index).isPrefixOf (placeholder other ++ rest) then 1 else 0) +
    occurrences (placeholder index) ((placeholder other).tail ++ rest) = _
  rw [htail, hhead]
  simp only [decide_eq_true_iff]

theorem prefix_append_cons_iff {c : Char} (h : c ∉ pattern) :
    pattern <+: front ++ c :: rest ↔ pattern <+: front := by
  constructor
  · intro hp
    obtain hle | ⟨behind, rfl⟩ := List.prefix_or_prefix_of_prefix hp (List.prefix_append front _)
    · exact hle
    · -- the pattern goes on behind the front, where the foreign character would be in it
      cases behind with
      | nil => exact (List.append_nil front).symm ▸ List.prefix_refl front
      | cons d behind =>
        have hd := (List.cons_prefix_cons.mp ((List.prefix_append_right_inj front).mp hp)).1
        exact absurd (List.mem_append_right front (hd ▸ List.mem_cons_self)) h
  · exact fun hp => hp.trans (List.prefix_append _ _)

/-- A character that is not in the pattern parts the text. -/
theorem occurrences_append_cons {c : Char} (h : c ∉ pattern) (front rest : List Char) :
    occurrences pattern (front ++ c :: rest) =
      occurrences pattern front + occurrences pattern (c :: rest) := by
  induction front with
  | nil => exact (Nat.zero_add _).symm
  | cons d front ih =>
    have hp : pattern.isPrefixOf (d :: (front ++ c :: rest)) = pattern.isPrefixOf (d :: front) := by
      apply Bool.eq_iff_iff.mpr
      rw [List.isPrefixOf_iff_prefix, List.isPrefixOf_iff_prefix]
      exact @prefix_append_cons_iff pattern (d :: front) rest c h
    rw [List.cons_append, occurrences, ih, hp, ← Nat.add_assoc]
    rfl

theorem replaceFrom_skip (pattern replacement : List Char) (skip : Nat) (text : List Char) :
    replaceFrom pattern replacement skip text =
      replaceFrom pattern replacement 0 (text.drop skip) := by
  induction skip generalizing text with
  | zero => rfl
  | succ skip ih =>
    cases text with
    | nil => rfl
    | cons c text => exact ih text

/-- Where no pattern begins before a certain place, a pass leaves the text before it alone. -/
theorem replaceFrom_append
    (h : occurrences pattern (front ++ rest) = occurrences pattern rest) :
    replaceFrom pattern replacement 0 (front ++ rest) =
      front ++ replaceFrom pattern replacement 0 rest := by
  induction front with
  | nil => rfl
  | cons c front ih =>
    have hle := occurrences_le_append pattern front rest
    rw [List.cons_append, occurrences] at h
    have hnot : ¬ pattern.isPrefixOf (c :: (front ++ rest)) = true := by
      intro hp
      rw [if_pos hp] at h
      omega
    rw [if_neg hnot, Nat.zero_add] at h
    rw [List.cons_append, replaceFrom, if_neg hnot, ih h, List.cons_append]

theorem replaceFrom_placeholder (index : Nat) (replacement rest : List Char) :
    replaceFrom (placeholder index) replacement 0 (placeholder index ++ rest) =
      replacement ++ replaceFrom (placeholder index) replacement 0 rest := by
  have hp : (placeholder index).isPrefixOf (placeholder index ++ rest) = true :=
    List.isPrefixOf_iff_prefix.mpr (List.prefix_append _ _)
  change (if (placeholder index).isPrefixOf (placeholder index ++ rest) then
      replacement ++ replaceFrom (placeholder index) replacement ((placeholder index).length - 1)
        ((placeholder index).tail ++ rest) else _) = _
  rw [if_pos hp, replaceFrom_skip, ← List.length_tail, List.drop_left]

/-- Each occurrence makes the text longer by the argument and shorter by the placeholder. -/
theorem length_replaceFrom (index : Nat) (replacement text : List Char) :
    (replaceFrom (placeholder index) replacement 0 text).length +
        occurrences (placeholder index) text * (placeholder index).length =
      text.length + occurrences (placeholder index) text * replacement.length := by
  induction text using template_induction (index + 1) with
  | nil => simp only [replaceFrom, occurrences, Nat.zero_mul]
  | hole other _ rest ih =>
    rw [occurrences_placeholder, List.length_append]
    by_cases he : index = other
    · subst he
      rw [if_pos rfl, replaceFrom_placeholder, List.length_append]
      linarith
    · have hsame := occurrences_placeholder index other rest
      rw [if_neg he, Nat.zero_add] at hsame ⊢
      rw [replaceFrom_append hsame, List.length_append]
      linarith
  | char c rest hn ih =>
    have hnot := holeAt?_eq_none_iff.mp hn index (Nat.lt_succ_self index)
    have hsame : occurrences (placeholder index) ([c] ++ rest) =
        occurrences (placeholder index) rest := occurrences_cons_of_not hnot
    change (replaceFrom (placeholder index) replacement 0 ([c] ++ rest)).length +
      occurrences (placeholder index) ([c] ++ rest) * _ =
        ([c] ++ rest).length + occurrences (placeholder index) ([c] ++ rest) * _
    rw [replaceFrom_append hsame, hsame, List.length_append, List.length_append]
    linarith

end Pass

/-! ### One walk -/

section Walk

variable {arguments : List String} {index : Nat} {front rest text : List Char}

theorem fillWalk_skip (arguments : List String) (skip : Nat) (text : List Char) :
    fillWalk arguments skip text = fillWalk arguments 0 (text.drop skip) := by
  induction skip generalizing text with
  | zero => rfl
  | succ skip ih =>
    cases text with
    | nil => rfl
    | cons c text => exact ih text

theorem fillWalk_cons {c : Char} (h : holeAt? arguments.length (c :: rest) = none) :
    fillWalk arguments 0 (c :: rest) = c :: fillWalk arguments 0 rest := by
  rw [fillWalk, h]

theorem fillWalk_append_of_ne (h : ∀ c ∈ front, c ≠ '\x7b') (rest : List Char) :
    fillWalk arguments 0 (front ++ rest) = front ++ fillWalk arguments 0 rest := by
  induction front with
  | nil => rfl
  | cons c front ih =>
    have hn : holeAt? arguments.length (c :: (front ++ rest)) = none :=
      holeAt?_eq_none_iff.mpr fun _ _ => not_placeholder_isPrefix (h c List.mem_cons_self)
    rw [List.cons_append, fillWalk_cons hn, ih fun d hd => h d (List.mem_cons_of_mem c hd),
      List.cons_append]

theorem fillWalk_placeholder (h : index < arguments.length) (rest : List Char) :
    fillWalk arguments 0 (placeholder index ++ rest) =
      (arguments.getD index "").toList ++ fillWalk arguments 0 rest := by
  have hh : holeAt? arguments.length (placeholder index ++ rest) = some index :=
    holeAt?_eq_some_iff.mpr ⟨h, List.prefix_append _ _⟩
  change (match holeAt? arguments.length (placeholder index ++ rest) with
    | some index => (arguments.getD index "").toList ++ fillWalk arguments
        ((placeholder index).length - 1) ((placeholder _).tail ++ rest)
    | none => _) = _
  rw [hh]
  change _ ++ fillWalk arguments _ ((placeholder index).tail ++ rest) = _
  rw [fillWalk_skip, ← List.length_tail, List.drop_left]

/-- The placeholder of an argument that is not there stays. -/
theorem fillWalk_placeholder_of_le (h : arguments.length ≤ index) (rest : List Char) :
    fillWalk arguments 0 (placeholder index ++ rest) =
      placeholder index ++ fillWalk arguments 0 rest := by
  have hn : holeAt? arguments.length (placeholder index ++ rest) = none := by
    apply holeAt?_eq_none_iff.mpr
    intro other ho hp
    have he := eq_of_placeholder_isPrefix hp (List.prefix_append (placeholder index) rest)
    omega
  have htail := @fillWalk_append_of_ne arguments (placeholder index).tail
    (fun c => ne_of_mem_placeholder_tail) rest
  rw [placeholder_eq_cons, List.tail_cons] at htail
  rw [placeholder_eq_cons, List.cons_append] at hn ⊢
  rw [fillWalk_cons hn, htail, List.cons_append]

theorem fillWalk_nil (text : List Char) : fillWalk [] 0 text = text := by
  induction text with
  | nil => rfl
  | cons c text ih => rw [fillWalk_cons (by rfl), ih]

/-- The walk takes no placeholder of the next argument away. -/
theorem occurrences_le_fillWalk (arguments : List String) (text : List Char) :
    occurrences (placeholder arguments.length) text ≤
      occurrences (placeholder arguments.length) (fillWalk arguments 0 text) := by
  induction text using template_induction (arguments.length + 1) with
  | nil => exact Nat.le_refl _
  | hole index hi rest ih =>
    obtain hlt | rfl := Nat.lt_succ_iff_lt_or_eq.mp hi
    · rw [fillWalk_placeholder hlt, occurrences_placeholder, if_neg (by omega), Nat.zero_add]
      exact ih.trans (occurrences_le_append _ _ _)
    · rw [fillWalk_placeholder_of_le (Nat.le_refl _), occurrences_placeholder,
        occurrences_placeholder]
      exact Nat.add_le_add_left ih _
  | char c rest hn ih =>
    have hnone := holeAt?_eq_none_iff.mp hn
    rw [fillWalk_cons (holeAt?_eq_none_iff.mpr fun other ho => hnone other (Nat.lt_succ_of_lt ho)),
      occurrences_cons_of_not (hnone _ (Nat.lt_succ_self _))]
    exact ih.trans (occurrences_le_append _ [c] _)

/-- One more pass is one more argument for the walk, if no placeholder of it was brought in. -/
theorem replaceFrom_fillWalk (last : String)
    (h : occurrences (placeholder arguments.length) (fillWalk arguments 0 text) =
      occurrences (placeholder arguments.length) text) :
    replaceFrom (placeholder arguments.length) last.toList 0 (fillWalk arguments 0 text) =
      fillWalk (arguments ++ [last]) 0 text := by
  have hlength : (arguments ++ [last]).length = arguments.length + 1 := List.length_append
  induction text using template_induction (arguments.length + 1) with
  | nil => rfl
  | hole index hi rest ih =>
    have hle := occurrences_le_fillWalk arguments rest
    have hnext : index < (arguments ++ [last]).length := by omega
    obtain hlt | rfl := Nat.lt_succ_iff_lt_or_eq.mp hi
    · -- the argument stands there already, and no placeholder begins in it
      have happend := occurrences_le_append (placeholder arguments.length)
        (arguments.getD index "").toList (fillWalk arguments 0 rest)
      rw [fillWalk_placeholder hlt, occurrences_placeholder, if_neg (by omega), Nat.zero_add] at h
      rw [fillWalk_placeholder hlt, fillWalk_placeholder hnext, replaceFrom_append (by omega),
        ih (by omega), List.getD_append _ _ _ _ hlt]
    · -- this is where the pass puts its argument in
      rw [fillWalk_placeholder_of_le (Nat.le_refl _), occurrences_placeholder,
        occurrences_placeholder] at h
      rw [fillWalk_placeholder_of_le (Nat.le_refl _), fillWalk_placeholder hnext,
        replaceFrom_placeholder, ih (by omega), List.getD_append_right _ _ _ _ (Nat.le_refl _),
        Nat.sub_self, List.getD_cons_zero]
  | char c rest hn ih =>
    have hle := occurrences_le_fillWalk arguments rest
    have hnone := holeAt?_eq_none_iff.mp hn
    have happend := occurrences_le_append (placeholder arguments.length) [c]
      (fillWalk arguments 0 rest)
    rw [fillWalk_cons (holeAt?_eq_none_iff.mpr fun other ho => hnone other (Nat.lt_succ_of_lt ho))]
      at h ⊢
    rw [occurrences_cons_of_not (hnone _ (Nat.lt_succ_self _))] at h
    rw [List.singleton_append] at happend
    have hpass := @replaceFrom_append (placeholder arguments.length) last.toList [c]
      (fillWalk arguments 0 rest) (by rw [List.singleton_append]; omega)
    rw [List.singleton_append, List.singleton_append] at hpass
    rw [hpass, ih (by omega), fillWalk_cons (by rw [hlength]; exact hn)]

theorem length_fillWalk_append (arguments : List String) (last : String) (text : List Char) :
    (fillWalk (arguments ++ [last]) 0 text).length +
        occurrences (placeholder arguments.length) text * (placeholder arguments.length).length =
      (fillWalk arguments 0 text).length +
        occurrences (placeholder arguments.length) text * last.toList.length := by
  have hlength : (arguments ++ [last]).length = arguments.length + 1 := List.length_append
  induction text using template_induction (arguments.length + 1) with
  | nil => simp only [fillWalk, occurrences, Nat.zero_mul]
  | hole index hi rest ih =>
    rw [fillWalk_placeholder (by rw [hlength]; exact hi), occurrences_placeholder,
      List.length_append]
    obtain hlt | rfl := Nat.lt_succ_iff_lt_or_eq.mp hi
    · rw [fillWalk_placeholder hlt, List.length_append, List.getD_append _ _ _ _ hlt,
        if_neg (by omega), Nat.zero_add]
      linarith
    · rw [fillWalk_placeholder_of_le (Nat.le_refl _), List.length_append, if_pos rfl,
        List.getD_append_right _ _ _ _ (Nat.le_refl _), Nat.sub_self, List.getD_cons_zero]
      linarith
  | char c rest hn ih =>
    have hnone := holeAt?_eq_none_iff.mp hn
    rw [fillWalk_cons (by rw [hlength]; exact hn), fillWalk_cons (holeAt?_eq_none_iff.mpr
        fun other ho => hnone other (Nat.lt_succ_of_lt ho)),
      occurrences_cons_of_not (hnone _ (Nat.lt_succ_self _)), List.length_cons, List.length_cons]
    linarith

/-- With a placeholder too many, an argument that is longer than its placeholder makes the text of the
passes too long. -/
theorem occurrences_eq_of_replaceFrom
    (h : ∀ last : String,
      replaceFrom (placeholder arguments.length) last.toList 0 (fillWalk arguments 0 text) =
        fillWalk (arguments ++ [last]) 0 text) :
    occurrences (placeholder arguments.length) (fillWalk arguments 0 text) =
      occurrences (placeholder arguments.length) text := by
  have hl := h (String.ofList ('x' :: placeholder arguments.length))
  have hpass := length_replaceFrom arguments.length ('x' :: placeholder arguments.length)
    (fillWalk arguments 0 text)
  have hwalk := length_fillWalk_append arguments
    (String.ofList ('x' :: placeholder arguments.length)) text
  rw [String.toList_ofList] at hl hwalk
  rw [hl] at hpass
  rw [List.length_cons, Nat.mul_succ] at hpass hwalk
  omega

end Walk

/-! ### All passes -/

section Passes

theorem fillFrom_append (index : Nat) (text : List Char) (arguments : List String) (last : String) :
    fillFrom index text (arguments ++ [last]) =
      replaceFrom (placeholder (index + arguments.length)) last.toList 0
        (fillFrom index text arguments) := by
  induction arguments generalizing index text with
  | nil => rfl
  | cons argument arguments ih =>
    rw [List.cons_append, fillFrom, ih, fillFrom, List.length_cons, Nat.add_right_comm, Nat.add_assoc]

variable {template : String} {arguments : List String}

theorem fill_nil (template : String) : fill template [] = fillAtOnce template [] := by
  rw [fill, fillAtOnce, fillFrom, fillWalk_nil]

/-- Behind arguments that went in as they should, the next one does whatever it is exactly if they
expose no placeholder of it. -/
theorem takesAnyNext_iff (h : fill template arguments = fillAtOnce template arguments) :
    TakesAnyNext template arguments ↔ ExposesNone template arguments := by
  have hwalk : fillFrom 0 template.toList arguments = fillWalk arguments 0 template.toList := by
    simpa only [fill, fillAtOnce, String.toList_ofList] using congrArg String.toList h
  have hstep (next : String) :
      fill template (arguments ++ [next]) = fillAtOnce template (arguments ++ [next]) ↔
      replaceFrom (placeholder arguments.length) next.toList 0
        (fillWalk arguments 0 template.toList) =
          fillWalk (arguments ++ [next]) 0 template.toList := by
    rw [fill, fillAtOnce, fillFrom_append, Nat.zero_add, hwalk, ← String.toList_inj,
      String.toList_ofList, String.toList_ofList]
  rw [TakesAnyNext, ExposesNone, fillAtOnce, String.toList_ofList]
  constructor
  · intro hall
    exact occurrences_eq_of_replaceFrom fun next => (hstep next).mp (hall next)
  · intro hsame next
    exact (hstep next).mpr (replaceFrom_fillWalk next hsame)

theorem fill_singleton (template argument : String) :
    fill template [argument] = fillAtOnce template [argument] := by
  have hnone : ExposesNone template [] := by
    rw [ExposesNone, fillAtOnce, fillWalk_nil, String.toList_ofList]
  exact (takesAnyNext_iff (fill_nil template)).mpr hnone argument

/-- What holds of every proper front of a list holds of those of a shorter one, and of that. -/
theorem forall_take_append {P : List String → Prop} (arguments : List String) (last : String) :
    (∀ index < (arguments ++ [last]).length, P ((arguments ++ [last]).take index)) ↔
      (∀ index < arguments.length, P (arguments.take index)) ∧ P arguments := by
  have htake : ∀ index ≤ arguments.length,
      (arguments ++ [last]).take index = arguments.take index := fun index hi =>
    List.take_append_of_le_length hi
  rw [List.length_append, List.length_singleton]
  constructor
  · intro h
    refine ⟨fun index hi => ?_, ?_⟩
    · rw [← htake index hi.le]
      exact h index (Nat.lt_succ_of_lt hi)
    · have hall := h arguments.length (Nat.lt_succ_self _)
      rwa [htake _ (Nat.le_refl _), List.take_length] at hall
  · rintro ⟨hfront, hall⟩ index hi
    rw [htake index (Nat.lt_succ_iff.mp hi)]
    obtain hlt | rfl := Nat.lt_succ_iff_lt_or_eq.mp hi
    · exact hfront index hlt
    · rwa [List.take_length]

/-- The passes give the text of the one walk, and go on to give it with any other argument at each
place, exactly if at no place the arguments before it expose a placeholder that the template does not
have. -/
theorem fill_eq_fillAtOnce_iff (template : String) (arguments : List String) :
    (∀ index < arguments.length, ExposesNone template (arguments.take index)) ↔
      fill template arguments = fillAtOnce template arguments ∧
        ∀ index < arguments.length, TakesAnyNext template (arguments.take index) := by
  induction arguments using List.reverseRecOn with
  | nil =>
    have hfill := fill_nil template
    simp [hfill]
  | append_singleton arguments last ih =>
    rw [forall_take_append, ih, forall_take_append]
    constructor
    · rintro ⟨⟨hfill, hfront⟩, hnone⟩
      have hnext := (takesAnyNext_iff hfill).mpr hnone
      exact ⟨hnext last, hfront, hnext⟩
    · rintro ⟨-, hfront, hnext⟩
      have hfill : fill template arguments = fillAtOnce template arguments := by
        cases arguments using List.reverseRecOn with
        | nil => exact fill_nil template
        | append_singleton arguments argument =>
          exact ((forall_take_append arguments argument).mp hfront).2 argument
      exact ⟨⟨hfill, hfront⟩, (takesAnyNext_iff hfill).mp hnext⟩

/-- A found text that looks like a placeholder is quoted as it is: no argument goes in behind it. -/
theorem fill_found_placeholder :
    fill "'\x7b0\x7d' expected but found '\x7b1\x7d'." [")", "\x7b0\x7d"] =
      "')' expected but found '\x7b0\x7d'." := by
  have hnone : ∀ index < [")", "\x7b0\x7d"].length, ExposesNone
      "'\x7b0\x7d' expected but found '\x7b1\x7d'." ([")", "\x7b0\x7d"].take index) := by
    decide
  calc fill _ _ = fillAtOnce _ _ := ((fill_eq_fillAtOnce_iff _ _).mp hnone).1
    _ = _ := by decide

example : fill "\x7b0\x7d" ["\x7b1\x7d", "x"] = "x" := by decide

example : fillAtOnce "\x7b0\x7d" ["\x7b1\x7d", "x"] = "\x7b1\x7d" := by decide

end Passes

end Template

theorem Message.text_singleton (message : Message) (argument : String) :
    message.text [argument] = Template.fillAtOnce message.template [argument] :=
  Template.fill_singleton message.template argument

/-- The one message with two arguments quotes every found text as it is, provided that what was wanted
does not look like the placeholder of the found text. -/
theorem SyntaxError.text_expected_iff (wanted : String) (token : Kind) (offset : Nat)
    (location : Location) :
    (∀ found, (expected wanted (some (found, token)) offset location).text =
      Template.fillAtOnce Message.expectedButFound.template [wanted, found]) ↔
      Template.occurrences (Template.placeholder 1) wanted.toList = 0 := by
  have hwalk : Template.fillWalk [wanted] 0 Message.expectedButFound.template.toList =
      ['\x27'] ++ (wanted.toList ++ '\x27' :: " expected but found '\x7b1\x7d'.".toList) := by
    rfl
  have hquote : '\x27' ∉ Template.placeholder 1 := by decide
  have hfront := @Template.occurrences_append_of_ne 1 ['\x27'] (by simp)
    (wanted.toList ++ '\x27' :: " expected but found '\x7b1\x7d'.".toList)
  have hrest : Template.occurrences (Template.placeholder 1)
      ('\x27' :: " expected but found '\x7b1\x7d'.".toList) = 1 := by decide
  have htemplate : Template.occurrences (Template.placeholder 1)
      Message.expectedButFound.template.toList = 1 := by decide
  have hexposed : Template.ExposesNone Message.expectedButFound.template [wanted] ↔
      Template.occurrences (Template.placeholder 1) wanted.toList = 0 := by
    rw [Template.ExposesNone, Template.fillAtOnce, String.toList_ofList, hwalk, List.length_singleton,
      hfront, Template.occurrences_append_cons hquote, hrest, htemplate]
    omega
  exact (Template.takesAnyNext_iff (Template.fill_singleton _ wanted)).trans hexposed

end ScriptTree
