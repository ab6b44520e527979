import ScriptTree.Proofs.SettledKeywords

/-!
Comments, strings, regular expressions, numbers and pieces of templates in front of a place where a
space or a comment is put.

What ends in front of the place stays: where it ends is told by its own last character or by the one
behind it, and neither a space nor a slash goes on with it. What has no end without the piece may get
one with it.
-/

namespace ScriptTree

/-- Texts that start alike, or of which the second starts as a piece does. -/
def StartsAlike (text text' : List Char) : Prop :=
  text'.head? = text.head? ∨ text'.head? = some ' ' ∨ text'.head? = some '/'

theorem startsAlike_filler {piece : List Char} (hp : Filler piece) (rest back : List Char) :
    StartsAlike (rest ++ back) (rest ++ (piece ++ back)) := by
  cases rest with
  | cons c rest => exact .inl rfl
  | nil =>
    obtain ⟨c, tail, rfl, rfl | rfl⟩ := hp.exists_cons
    · exact .inr (.inl rfl)
    · exact .inr (.inr rfl)

theorem StartsAlike.append {text text' : List Char} (h : StartsAlike text text') (front : List Char) :
    StartsAlike (front ++ text) (front ++ text') := by
  cases front with
  | nil => exact h
  | cons c front => exact .inl rfl

/-- What no piece starts with stays away from the start. -/
theorem StartsAlike.avoids {text text' : List Char} (h : StartsAlike text text') {p : Char → Bool}
    (hs : p ' ' = false) (hc : p '/' = false) (ht : ∀ c ∈ text.head?, p c = false) :
    ∀ c ∈ text'.head?, p c = false := by
  intro c hin
  rcases h with h | h | h
  · exact ht c (by rw [← h]; exact hin)
  · rw [h] at hin
    cases hin
    exact hs
  · rw [h] at hin
    cases hin
    exact hc

theorem takeWhile_append_eq_iff {front text : List Char} {p : Char → Bool}  :
    (front ++ text).takeWhile p = front ↔
      (∀ c ∈ front, p c = true) ∧ ∀ c ∈ text.head?, p c = false := by
  constructor
  · intro h
    have hall : ∀ c ∈ front, p c = true := by
      intro c hc
      rw [← h] at hc
      exact List.mem_takeWhile_imp hc
    refine ⟨hall, fun c hc => ?_⟩
    rw [List.takeWhile_append_of_pos hall, List.append_right_eq_self] at h
    cases text with
    | nil => cases hc
    | cons d text =>
      cases hc
      by_contra hd
      rw [Bool.not_eq_false] at hd
      rw [List.takeWhile_cons_of_pos hd] at h
      cases h
  · rintro ⟨hall, hstop⟩
    rw [List.takeWhile_append_of_pos hall, List.append_right_eq_self]
    cases text with
    | nil => rfl
    | cons d text => exact List.takeWhile_cons_of_neg (by simp [hstop d rfl])

/-- A run that ends in front of a text ends in front of one that starts alike. -/
theorem takeWhile_kept {front text text' : List Char} {p : Char → Bool} (hs : p ' ' = false)
    (hc : p '/' = false) (h : (front ++ text).takeWhile p = front) (ha : StartsAlike text text') :
    (front ++ text').takeWhile p = front := by
  rw [takeWhile_append_eq_iff] at h ⊢
  exact ⟨h.1, ha.avoids hs hc h.2⟩

namespace Scan

section Numbers

variable {text text' : List Char}

theorem mantissa?_kept {mantissa : List Char} (h : mantissa? (mantissa ++ text) = some mantissa)
    (ha : StartsAlike text text') : mantissa? (mantissa ++ text') = some mantissa := by
  have hdot : Char.isDigit '.' = false := rfl
  unfold mantissa? at h
  dsimp only at h
  generalize hw : (mantissa ++ text).takeWhile Char.isDigit = whole at h
  have hsplit := List.takeWhile_append_dropWhile (p := Char.isDigit) (l := mantissa ++ text)
  rw [hw] at hsplit
  have hdigits : ∀ c ∈ whole, c.isDigit = true := by
    intro c hc
    rw [← hw] at hc
    exact List.mem_takeWhile_imp hc
  split at h
  · rename_i rest hrest
    split at h
    · cases h
    · rename_i hne
      cases h
      -- the mantissa ends with the digits behind the point
      rw [hrest] at hsplit
      generalize hf : rest.takeWhile Char.isDigit = fraction at hne hsplit hw hrest
      have hr : rest = fraction ++ text := by simpa using hsplit
      rw [hr] at hf
      have hf' := takeWhile_kept rfl rfl hf ha
      have htake : (whole ++ '.' :: fraction ++ text').takeWhile Char.isDigit = whole := by
        rw [List.append_assoc, takeWhile_append_eq_iff]
        refine ⟨hdigits, fun c hc => ?_⟩
        cases hc
        rfl
      have hdrop : (whole ++ '.' :: fraction ++ text').dropWhile Char.isDigit =
          '.' :: (fraction ++ text') := by
        rw [List.append_assoc, List.dropWhile_append_of_pos hdigits]
        exact List.dropWhile_cons_of_neg (by simp [hdot])
      unfold mantissa?
      simp only [htake, hdrop, hf', if_neg hne]
  · rename_i hrest
    split at h
    · cases h
    · rename_i hne
      cases h
      have hdrop (x : List Char) (hx : ∀ c ∈ x.head?, c.isDigit = false) :
          (mantissa ++ x).dropWhile Char.isDigit = x := by
        rw [List.dropWhile_append_of_pos hdigits]
        cases x with
        | nil => rfl
        | cons c x => exact List.dropWhile_cons_of_neg (by simp [hx c rfl])
      have hstop := (takeWhile_append_eq_iff.mp hw).2
      have hstop' := ha.avoids rfl rfl hstop
      have hpoint : ∀ c ∈ text'.head?, (c == '.') = false := by
        refine ha.avoids rfl rfl fun c hc => ?_
        rw [hdrop text hstop] at hrest
        cases text with
        | nil => cases hc
        | cons d text =>
          cases hc
          exact beq_eq_false_iff_ne.mpr fun hd => hrest text (by rw [hd])
      unfold mantissa?
      dsimp only
      rw [takeWhile_kept rfl rfl hw ha, hdrop text' hstop']
      split
      · exact absurd (hpoint '.' rfl) (by decide)
      · rw [if_neg hne]

/-- The sign at the start of a text. -/
def signOf : List Char → List Char
  | '+' :: _ => ['+']
  | '-' :: _ => ['-']
  | _ => []

theorem exponent_cons (mark : Char) (text : List Char) : exponent (mark :: text) =
    if mark == 'e' || mark == 'E' then
      if ((text.drop (signOf text).length).takeWhile Char.isDigit).isEmpty then []
      else mark :: signOf text ++ (text.drop (signOf text).length).takeWhile Char.isDigit
    else [] := rfl

theorem signOf_append {marks : List Char} (hne : marks ≠ []) (text : List Char) :
    signOf (marks ++ text) = signOf marks := by
  obtain ⟨c, marks, rfl⟩ := List.exists_cons_of_ne_nil hne
  by_cases hp : c = '+'
  · rw [hp]
    rfl
  · by_cases hm : c = '-'
    · rw [hm]
      rfl
    · simp [signOf, hp, hm]

theorem exponent_kept {marks : List Char} (h : exponent (marks ++ text) = marks)
    (ha : StartsAlike text text') (hn : ∀ c ∈ text.head?, isNameStart c = false) :
    exponent (marks ++ text') = marks := by
  cases marks with
  | nil =>
    have hn' := ha.avoids (by decide) (by decide) hn
    cases text' with
    | nil => rfl
    | cons c text' =>
      have hc : isNameStart c = false := hn' c rfl
      have he : (c == 'e' || c == 'E') = false := by
        rw [Bool.or_eq_false_iff, beq_eq_false_iff_ne, beq_eq_false_iff_ne]
        constructor
        · rintro rfl
          exact absurd hc (by decide)
        · rintro rfl
          exact absurd hc (by decide)
      exact if_neg (by simp [he])
  | cons mark marks =>
    rw [List.cons_append, exponent_cons] at h ⊢
    split at h
    · rename_i hmark
      split at h
      · cases h
      · rename_i hne
        have hmarks : signOf (marks ++ text) ++
            ((marks ++ text).drop (signOf (marks ++ text)).length).takeWhile Char.isDigit = marks :=
          (List.cons.inj h).2
        have hsome : marks ≠ [] := by
          rintro rfl
          exact hne (List.isEmpty_iff.mpr (List.append_eq_nil_iff.mp hmarks).2)
        rw [signOf_append hsome] at hmarks hne
        generalize hd : ((marks ++ text).drop (signOf marks).length).takeWhile Char.isDigit = digits
          at hmarks hne
        -- the digits behind the sign end with the exponent
        have hsplit (x : List Char) : (marks ++ x).drop (signOf marks).length = digits ++ x := by
          have hle : (signOf marks).length ≤ marks.length := by
            have hlength := congrArg List.length hmarks
            rw [List.length_append] at hlength
            omega
          have hdrop := congrArg (List.drop (signOf marks).length) hmarks
          rw [List.drop_left] at hdrop
          rw [List.drop_append_of_le_length hle, ← hdrop]
        rw [hsplit] at hd
        rw [if_pos hmark, signOf_append hsome, hsplit, takeWhile_kept rfl rfl hd ha, if_neg hne,
          List.cons_append, hmarks]
    · cases h

theorem radixInteger?_kept {digits : List Char} (h : radixInteger? (digits ++ text) = some digits)
    (ha : StartsAlike text text') : radixInteger? (digits ++ text') = some digits := by
  have hne : 2 ≤ digits.length := by
    unfold radixInteger? at h
    split at h
    · simp only [Option.bind_eq_bind, Option.bind_eq_some_iff] at h
      obtain ⟨_, -, h⟩ := h
      split at h
      · cases h
      · cases h
        simp
    · cases h
  cases digits with
  | nil => simp at hne
  | cons zero digits =>
    cases digits with
    | nil => simp at hne
    | cons marker digits =>
      by_cases hz : zero = '0'
      · subst hz
        simp only [List.cons_append, radixInteger?, Option.bind_eq_bind, Option.bind_eq_some_iff] at h ⊢
        obtain ⟨isDigit, hr, h⟩ := h
        refine ⟨isDigit, hr, ?_⟩
        split at h
        · cases h
        · rename_i hsome
          have hd : (digits ++ text).takeWhile isDigit = digits := by simpa using h
          -- neither a space nor a slash is a digit of any radix
          have hplain : isDigit ' ' = false ∧ isDigit '/' = false := by
            unfold radixDigit? at hr
            split at hr
            · cases hr
              decide
            · split at hr
              · cases hr
                decide
              · split at hr
                · cases hr
                  decide
                · cases hr
          rw [hd] at hsome
          rw [takeWhile_kept hplain.1 hplain.2 hd ha, if_neg hsome]
      · have hno (x : List Char) : radixInteger? (zero :: marker :: digits ++ x) = none := by
          simp [radixInteger?, hz]
        rw [hno] at h
        cases h

/-- The letter of a radix starts no exponent, and stands in no mantissa. -/
theorem radixDigit?_isNameStart {marker : Char} {isDigit : Char → Bool}
    (h : radixDigit? marker = some isDigit) : isNameStart marker = true ∧ marker.isDigit = false ∧
      marker ≠ '.' ∧ marker ≠ 'e' ∧ marker ≠ 'E' := by
  have hin : marker ∈ ['x', 'X', 'o', 'O', 'b', 'B'] := by
    simp only [radixDigit?, Bool.or_eq_true, beq_iff_eq] at h
    grind
  have hall : (['x', 'X', 'o', 'O', 'b', 'B'].all fun c =>
      isNameStart c && !c.isDigit && c != '.' && c != 'e' && c != 'E') = true := by
    decide
  have hmarker := List.all_eq_true.mp hall marker hin
  simpa [and_assoc] using hmarker

theorem mantissa?_ne_nil {text mantissa : List Char} (h : mantissa? text = some mantissa) :
    mantissa ≠ [] := by
  rintro rfl
  unfold mantissa? at h
  dsimp only at h
  split at h
  · split at h
    · cases h
    · simp at h
  · split at h
    · cases h
    · rename_i hne
      rw [Option.some.injEq] at h
      rw [h] at hne
      exact hne rfl

/-- A number without a radix does not get one: the letter would have to stand behind a zero, and the
number would have ended in front of it. -/
theorem radixInteger?_none_kept {mantissa marks : List Char}
    (hm : mantissa? (mantissa ++ marks ++ text) = some mantissa)
    (he : exponent (marks ++ text) = marks) (ha : StartsAlike text text')
    (hn : ∀ c ∈ text.head?, isNameStart c = false) :
    radixInteger? (mantissa ++ marks ++ text') = none := by
  have hnotNil := mantissa?_ne_nil hm
  cases hr : radixInteger? (mantissa ++ marks ++ text') with
  | none => rfl
  | some digits =>
    exfalso
    unfold radixInteger? at hr
    split at hr
    · rename_i marker rest hall
      simp only [Option.bind_eq_bind, Option.bind_eq_some_iff] at hr
      obtain ⟨isDigit, hd, -⟩ := hr
      obtain ⟨hstart, hdigit, hdot, hlower, hupper⟩ := radixDigit?_isNameStart hd
      obtain ⟨zero, others, rfl⟩ := List.exists_cons_of_ne_nil hnotNil
      obtain rfl : zero = '0' := (List.cons.inj hall).1
      have hrest : others ++ marks ++ text' = marker :: rest := (List.cons.inj hall).2
      cases hfront : others ++ marks with
      | nil =>
        -- the letter would stand behind the number, which runs into no name
        rw [hfront, List.nil_append] at hrest
        have hno := ha.avoids (by decide) (by decide) hn marker (by rw [hrest]; rfl)
        rw [hno] at hstart
        cases hstart
      | cons c front =>
        rw [hfront] at hrest
        obtain rfl : c = marker := (List.cons.inj hrest).1
        have hzero : mantissa? ('0' :: others ++ marks ++ text) = some ['0'] := by
          have hsplit : '0' :: others ++ marks ++ text = '0' :: c :: (front ++ text) := by
            simp [hfront]
          rw [hsplit]
          simp [mantissa?, hdigit, hdot, (by decide : Char.isDigit '0' = true)]
        obtain rfl : others = [] := by
          rw [hm] at hzero
          simpa using hzero
        rw [List.nil_append] at hfront
        rw [hfront, List.cons_append, exponent_cons] at he
        simp [hlower, hupper] at he
    · cases hr

theorem numeral?_kept {numeral : List Char} (h : numeral? (numeral ++ text) = some numeral)
    (ha : StartsAlike text text') (hn : ∀ c ∈ text.head?, isNameStart c = false) :
    numeral? (numeral ++ text') = some numeral := by
  unfold numeral? at h
  cases hr : radixInteger? (numeral ++ text) with
  | some digits =>
    rw [hr] at h
    cases h
    unfold numeral?
    rw [radixInteger?_kept hr ha]
  | none =>
    rw [hr] at h
    obtain ⟨mantissa, hm, hs⟩ := Option.map_eq_some_iff.mp h
    generalize he : exponent ((numeral ++ text).drop mantissa.length) = marks at hs
    subst hs
    rw [List.append_assoc, List.drop_left] at he
    have hr' := radixInteger?_none_kept hm he ha hn
    rw [List.append_assoc] at hm
    have hm' := mantissa?_kept hm (ha.append marks)
    have he' := exponent_kept he ha hn
    unfold numeral?
    rw [hr']
    simp only [List.append_assoc, hm', Option.map_some, List.drop_left, he']

end Numbers

section Kept

variable {text text' : List Char} {lexeme : Lexeme}

theorem number_kept (h : number (lexeme.raw ++ text) = some lexeme) (ha : StartsAlike text text') :
    number (lexeme.raw ++ text') = some lexeme := by
  have hparts : ∃ numeral, numeral? (numeral ++ text) = some numeral ∧
      (∀ c ∈ text.head?, isNameStart c = false) ∧ lexeme = .whole numeral := by
    unfold number at h
    split at h
    · rename_i numeral hn
      split at h
      · rename_i c rest hd
        split at h
        · cases h
        · rename_i hstart
          cases h
          have hraw : (Lexeme.whole numeral).raw = numeral := by simp [Lexeme.raw, Lexeme.whole]
          rw [hraw] at hn hd
          rw [List.drop_left] at hd
          refine ⟨numeral, hn, fun d hin => ?_, rfl⟩
          rw [hd] at hin
          cases hin
          simpa using hstart
      · rename_i hd
        cases h
        have hraw : (Lexeme.whole numeral).raw = numeral := by simp [Lexeme.raw, Lexeme.whole]
        rw [hraw] at hn hd
        rw [List.drop_left] at hd
        refine ⟨numeral, hn, fun d hin => ?_, rfl⟩
        rw [hd] at hin
        cases hin
    · cases h
  obtain ⟨numeral, hn, hstop, rfl⟩ := hparts
  have hraw : (Lexeme.whole numeral).raw = numeral := by simp [Lexeme.raw, Lexeme.whole]
  have hstop' := ha.avoids (by decide) (by decide) hstop
  rw [hraw]
  unfold number
  rw [numeral?_kept hn ha hstop]
  dsimp only
  rw [List.drop_left]
  cases text' with
  | nil => rfl
  | cons c text' => simp [hstop' c rfl]

theorem commentTail?_kept {tail : List Char} (h : commentTail? (tail ++ text) = some tail)
    (text' : List Char) : commentTail? (tail ++ text') = some tail := by
  rw [commentTail?_eq_some_iff] at h ⊢
  obtain ⟨body, rest, -, rfl, hbody⟩ := h
  exact ⟨body, text', by simp, rfl, hbody⟩

theorem blockComment_kept (h : blockComment (lexeme.raw ++ text) = some lexeme) (text' : List Char) :
    blockComment (lexeme.raw ++ text') = some lexeme := by
  unfold blockComment at h
  split at h
  · rename_i inner hall
    obtain ⟨tail, ht, rfl⟩ := Option.map_eq_some_iff.mp h
    have hraw : (Lexeme.whole ('/' :: '*' :: tail)).raw = '/' :: '*' :: tail := by
      simp [Lexeme.raw, Lexeme.whole]
    rw [hraw] at hall ⊢
    have hinner : tail ++ text = inner := by simpa using hall
    rw [← hinner] at ht
    simp only [List.cons_append, blockComment, commentTail?_kept ht text', Option.map_some]
  · cases h

/-- The contents of a string are what they are up to the quote, whatever stands behind it. -/
theorem stringBody?_again {quote : Char} {body : List Char} (h : stringBody? quote text = some body)
    (hq : (quote == '\\' || quote == '\n' || quote == '\r') = false) (text' : List Char) :
    stringBody? quote (body ++ quote :: text') = some body := by
  fun_induction stringBody? quote text generalizing body with
  | case1 => cases h
  | case2 c text ih =>
    obtain ⟨body, hb, rfl⟩ := Option.map_eq_some_iff.mp h
    simp only [List.cons_append, stringBody?, ih hb, Option.map_some]
  | case3 => cases h
  | case4 c text _ hc hcq =>
    cases h
    rw [List.nil_append, stringBody?.eq_3 _ _ _ (by grind), if_neg (by simp [hq]), if_pos (by simp)]
  | case5 c text _ hc hcq ih =>
    obtain ⟨body, hb, rfl⟩ := Option.map_eq_some_iff.mp h
    rw [List.cons_append, stringBody?.eq_3 _ _ _ (by grind), if_neg hc, if_neg hcq, ih hb,
      Option.map_some]

theorem string_kept (h : string (lexeme.raw ++ text) = some lexeme) (text' : List Char) :
    string (lexeme.raw ++ text') = some lexeme := by
  unfold string at h
  split at h
  · rename_i quote inner hall
    split at h
    · rename_i hquote
      obtain ⟨body, hb, rfl⟩ := Option.map_eq_some_iff.mp h
      have hplain : (quote == '\\' || quote == '\n' || quote == '\r') = false := by
        rw [Bool.or_eq_true, beq_iff_eq, beq_iff_eq] at hquote
        rcases hquote with rfl | rfl <;> rfl
      have hraw : (⟨[quote], body, [quote]⟩ : Lexeme).raw ++ text' = quote :: (body ++ quote :: text') := by
        simp [Lexeme.raw]
      rw [hraw, string, if_pos hquote, stringBody?_again hb hplain text', Option.map_some]
    · cases h
  · cases h

theorem templateBody?_stop {body stop : List Char} (h : templateBody? text = some (body, stop)) :
    stop ≠ [] := by
  fun_induction templateBody? text generalizing body stop with
  | case1 => cases h
  | case3 | case5 =>
    cases h
    exact List.cons_ne_nil _ _
  | case4 => cases h
  | case2 _ _ ih | case6 _ _ _ _ _ _ ih =>
    obtain ⟨⟨_, _⟩, hb, he⟩ := Option.map_eq_some_iff.mp h
    cases he
    exact ih hb

/-- A piece of template text is what it is up to its end, whatever stands behind it. -/
theorem templateBody?_again {body stop : List Char} (h : templateBody? text = some (body, stop))
    (text' : List Char) : templateBody? (body ++ stop ++ text') = some (body, stop) := by
  fun_induction templateBody? text generalizing body stop with
  | case1 => cases h
  | case2 c text ih =>
    obtain ⟨⟨body, stop⟩, hb, he⟩ := Option.map_eq_some_iff.mp h
    cases he
    simp only [List.cons_append, templateBody?, ih hb, Option.map_some]
  | case3 text =>
    cases h
    rfl
  | case4 => cases h
  | case5 c text _ _ _ hc =>
    cases h
    rfl
  | case6 c text _ hopen hno hc ih =>
    obtain ⟨⟨body, stop⟩, hb, he⟩ := Option.map_eq_some_iff.mp h
    cases he
    -- a dollar sign in front of the end is no opening, since it was none before
    have hopen' : ∀ rest, c = '$' → body ++ stop ++ text' = '\x7b' :: rest → False := by
      intro rest hd hbrace
      obtain ⟨behind, htext⟩ := templateBody?_isPrefix hb
      have hne : body ++ stop ≠ [] := List.append_ne_nil_of_right_ne_nil body (templateBody?_stop hb)
      obtain ⟨first, front, hfront⟩ := List.exists_cons_of_ne_nil hne
      rw [hfront] at hbrace htext
      obtain rfl : first = '\x7b' := (List.cons.inj hbrace).1
      exact hopen _ hd htext.symm
    rw [List.cons_append, List.cons_append, templateBody?.eq_4 _ _ (by grind) hopen', if_neg hno,
      if_neg hc, ih hb, Option.map_some]

theorem templateChunk_kept (h : templateChunk (lexeme.raw ++ text) = some lexeme)
    (text' : List Char) : templateChunk (lexeme.raw ++ text') = some lexeme := by
  obtain ⟨⟨body, stop⟩, hb, rfl⟩ := Option.map_eq_some_iff.mp h
  have hraw : (⟨[], body, stop⟩ : Lexeme).raw = body ++ stop := by simp [Lexeme.raw]
  rw [hraw, templateChunk, templateBody?_again hb text', Option.map_some]

/-- The body of a regular expression is what it is up to its slash, whatever stands behind it. -/
theorem regexBody?_again {inClass : Bool} {body : List Char} (h : regexBody? inClass text = some body)
    (text' : List Char) : regexBody? inClass (body ++ '/' :: text') = some body := by
  fun_induction regexBody? inClass text generalizing body with
  | case1 => cases h
  | case2 inClass c text ih =>
    obtain ⟨body, hb, rfl⟩ := Option.map_eq_some_iff.mp h
    simp only [List.cons_append, regexBody?, ih hb, Option.map_some]
  | case3 => cases h
  | case4 inClass c text _ hc ho ih =>
    obtain ⟨body, hb, rfl⟩ := Option.map_eq_some_iff.mp h
    rw [List.cons_append, regexBody?.eq_3 _ _ _ (by grind), if_neg hc, if_pos ho, ih hb,
      Option.map_some]
  | case5 inClass c text _ hc ho hcl ih =>
    obtain ⟨body, hb, rfl⟩ := Option.map_eq_some_iff.mp h
    rw [List.cons_append, regexBody?.eq_3 _ _ _ (by grind), if_neg hc, if_neg ho, if_pos hcl, ih hb,
      Option.map_some]
  | case6 inClass c text _ hc ho hcl hs =>
    cases h
    have hcs : inClass = false := by simpa using (Bool.and_eq_true_iff.mp hs).2
    subst hcs
    rfl
  | case7 inClass c text _ hc ho hcl hs ih =>
    obtain ⟨body, hb, rfl⟩ := Option.map_eq_some_iff.mp h
    rw [List.cons_append, regexBody?.eq_3 _ _ _ (by grind), if_neg hc, if_neg ho, if_neg hcl,
      if_neg hs, ih hb, Option.map_some]

theorem regex_kept (h : regex (lexeme.raw ++ text) = some lexeme) (ha : StartsAlike text text') :
    regex (lexeme.raw ++ text') = some lexeme := by
  unfold regex at h
  split at h
  · rename_i inner hall
    split at h
    · cases h
    · rename_i body hne hb
      cases h
      generalize hflags : (inner.drop (body.length + 1)).takeWhile isRegexFlag = flags at hall
      have hraw : (Lexeme.whole ('/' :: body ++ '/' :: flags)).raw = '/' :: (body ++ '/' :: flags) := by
        simp [Lexeme.raw, Lexeme.whole]
      rw [hraw] at hall ⊢
      have hinner : inner = body ++ '/' :: (flags ++ text) := by simpa using hall.symm
      have hdrop (x : List Char) : (body ++ '/' :: (flags ++ x)).drop (body.length + 1) = flags ++ x := by
        rw [← List.drop_drop, List.drop_left]
        rfl
      rw [hinner, hdrop] at hflags
      have hflags' := takeWhile_kept (by decide) (by decide) hflags ha
      have hsplit : '/' :: (body ++ '/' :: flags) ++ text' = '/' :: (body ++ '/' :: (flags ++ text')) := by
        simp
      have hbody := regexBody?_again hb (flags ++ text')
      rw [hsplit, regex, hbody]
      cases body with
      | nil => exact absurd rfl hne
      | cons c body =>
        dsimp only
        rw [hdrop, hflags']
    · cases h
  · cases h

end Kept

end Scan

end ScriptTree
