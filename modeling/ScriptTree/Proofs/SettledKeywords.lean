import ScriptTree.Proofs.Settled

/-!
The keyword forms in front of a place where a space or a comment is put.

They look past the word they start with, for a star, for another word, for a label or a parenthesis,
and for white space. Unless the piece divides a name they find the same, but for the words that want
white space behind them.
-/

namespace ScriptTree

namespace Scan

variable {mid piece back : List Char}

section Keywords

theorem starOrBoundary?_star {text rest : List Char} (h : afterSpace text = '*' :: rest) :
    starOrBoundary? text = some (leadingSpace text ++ ['*']) := by
  unfold starOrBoundary?
  rw [h]
  rfl

theorem starOrBoundary?_plain {text : List Char} (h : (afterSpace text).head? ≠ some '*') :
    starOrBoundary? text = if atBoundary text then some [] else none := by
  unfold starOrBoundary?
  split
  · rename_i hs
    exact absurd (by rw [hs]; rfl) h
  · rfl

/-- The star behind a generator word is found, or it is not, whatever is put in front of it; but a
longer word ends at the piece. -/
theorem settled_starOrBoundary? (hp : Filler piece) :
    Settled List.length starOrBoundary? mid piece back ∨ mid = [] ∧ atBoundary back = false := by
  -- without a star, only the character behind the word matters
  have hplain (hs : (afterSpace (mid ++ back)).head? ≠ some '*')
      (hs' : (afterSpace (mid ++ (piece ++ back))).head? ≠ some '*') :
      Settled List.length starOrBoundary? mid piece back ∨ mid = [] ∧ atBoundary back = false := by
    rw [Settled, starOrBoundary?_plain hs, starOrBoundary?_plain hs']
    cases mid with
    | cons c mid => exact .inl (.inl rfl)
    | nil =>
      cases hb : atBoundary back with
      | false => exact .inr ⟨rfl, rfl⟩
      | true =>
        refine .inl (.inl ?_)
        simp only [List.nil_append, hp.atBoundary, hb]
  have hover {rest : List Char} (hl : leadingSpace (mid ++ back) = mid ++ leadingSpace back)
      (hs : afterSpace (mid ++ back) = '*' :: rest) :
      Settled List.length starOrBoundary? mid piece back := by
    refine .inr ⟨_, starOrBoundary?_star hs, ?_⟩
    simp only [hl, List.length_append, List.length_cons, List.length_nil]
    omega
  cases spaceCut hp mid back with
  | stops front c rest he hc _ hl hs =>
    by_cases hstar : c = '*'
    · subst hstar
      refine .inl (.inl ?_)
      rw [starOrBoundary?_star (hs _), starOrBoundary?_star (hs _), hl, hl]
    · exact hplain (by simp [hs, hstar]) (by simp [hs, hstar])
  | space _ hl hs _ hs' =>
    by_cases hstar : (afterSpace back).head? = some '*'
    · obtain ⟨rest, hrest⟩ := List.head?_eq_some_iff.mp hstar
      exact .inl (hover hl (hs.trans hrest))
    · exact hplain (by rwa [hs]) (by rwa [hs'])
  | comment rest _ hl hs _ hs' =>
    by_cases hstar : (afterSpace back).head? = some '*'
    · obtain ⟨rest, hrest⟩ := List.head?_eq_some_iff.mp hstar
      exact .inl (hover hl (hs.trans hrest))
    · exact hplain (by rwa [hs]) (by simp [hs'])

section Behind

variable {α : Type} {size : α → Nat} {find : List Char → Option α} (word : List Char)
  (find' : List Char → Option α) {Other : Prop}

/-- A spelling that stands in front of the place is followed by what settles, or the spelling itself
goes over the place. -/
theorem settled_behind_spelling (hp : Filler piece) (hword : word.all isNamePart = true)
    (hnone : ∀ text, afterSpelling? word text = none → find text = none)
    (hsome : ∀ text rest, afterSpelling? word text = some rest → find text = find' rest)
    (hsize : ∀ rest a, find' rest = some a → word.length ≤ size a)
    (hsettled : ∀ rest, mid = word ++ rest →
      Settled (fun a => size a - word.length) find' rest piece back ∨ Other) :
    Settled size find mid piece back ∨ Other := by
  rw [List.all_eq_true] at hword
  by_cases hl : mid.length < word.length
  · left
    have hno : afterSpelling? word (mid ++ (piece ++ back)) = none :=
      afterSpelling?_filler hp hl fun c hc => ne_filler_of_isNamePart (hword c (List.mem_of_mem_drop hc))
    cases hf : find (mid ++ back) with
    | none => exact settled_of_none hf (hnone _ hno)
    | some a =>
      refine .inr ⟨a, hf, ?_⟩
      cases ha : afterSpelling? word (mid ++ back) with
      | none =>
        rw [hnone _ ha] at hf
        cases hf
      | some rest =>
        rw [hsome _ _ ha] at hf
        have hle := hsize rest a hf
        omega
  · have hboth (x : List Char) := afterSpelling?_of_le (Nat.not_lt.mp hl) x
    cases hm : afterSpelling? word mid with
    | none =>
      have hno (x : List Char) : find (mid ++ x) = none := hnone _ (by rw [hboth, hm]; rfl)
      exact .inl (settled_of_none (hno _) (hno _))
    | some rest =>
      have he := eq_append_of_afterSpelling? hm
      have hgo (x : List Char) : find (mid ++ x) = find' (rest ++ x) :=
        hsome _ _ (by rw [hboth, hm]; rfl)
      refine (hsettled rest he).imp_left fun h => ?_
      rcases h with hsame | ⟨a, ha, hlt⟩
      · exact .inl (by rw [hgo, hgo, hsame])
      · refine .inr ⟨a, by rw [hgo, ha], ?_⟩
        dsimp only at hlt
        rw [he, List.length_append]
        omega

/-- A word that stands in front of the place is followed by what settles, or the word goes over the
place; or the word ends at the piece, but a longer one stands there without it. -/
theorem settled_behind_word (hp : Filler piece) (hword : word.all isNamePart = true)
    (hnone : ∀ text, afterWord? word text = none → find text = none)
    (hsome : ∀ text rest, afterWord? word text = some rest → find text = find' rest)
    (hsize : ∀ rest a, find' rest = some a → word.length ≤ size a)
    (hsettled : ∀ rest, mid = word ++ rest → atBoundary (rest ++ back) = true →
      Settled (fun a => size a - word.length) find' rest piece back ∨ Other) :
    Settled size find mid piece back ∨ mid = word ∧ atBoundary back = false ∨ Other := by
  cases wordCut hp hword mid back with
  | inside rest he ha ha' =>
    have hb : atBoundary (rest ++ back) = true := by
      rw [afterWord?, Option.filter_eq_some_iff] at ha
      exact ha.2
    rcases hsettled rest he hb with (hsame | ⟨a, hf, hlt⟩) | hother
    · exact .inl (.inl (by rw [hsome _ _ ha, hsome _ _ ha', hsame]))
    · refine .inl (.inr ⟨a, by rw [hsome _ _ ha, hf], ?_⟩)
      dsimp only at hlt
      rw [he, List.length_append]
      omega
    · exact .inr (.inr hother)
  | absent ha ha' => exact .inl (settled_of_none (hnone _ ha) (hnone _ ha'))
  | past rest hl ha ha' =>
    left
    cases hf : find (mid ++ back) with
    | none => exact settled_of_none hf (hnone _ ha')
    | some a =>
      refine .inr ⟨a, hf, ?_⟩
      rw [hsome _ _ ha] at hf
      have hle := hsize rest a hf
      omega
  | joined he hb _ _ => exact .inr (.inl ⟨he, hb⟩)

end Behind

theorem settled_plainFunction? (hp : Filler piece) :
    Settled List.length plainFunction? mid piece back ∨
      mid = functionWord ∧ atBoundary back = false := by
  refine settled_behind_spelling functionWord
    (fun rest => (starOrBoundary? rest).map fun star => functionWord ++ star) hp (by decide)
    (fun text h => ?_) (fun text rest h => ?_) (fun rest a h => ?_) fun rest he => ?_
  · simp only [plainFunction?, h, Option.bind_eq_bind, Option.bind_none]
  · simp only [plainFunction?, h, Option.bind_eq_bind, Option.bind_some]
    cases starOrBoundary? rest <;> rfl
  · obtain ⟨star, -, rfl⟩ := Option.map_eq_some_iff.mp h
    rw [List.length_append]
    omega
  · have hs : Settled List.length starOrBoundary? rest piece back ∨ rest = [] ∧ _ :=
      settled_starOrBoundary? hp
    rcases hs with h | ⟨rfl, hb⟩
    · exact .inl (h.map fun star => by simp)
    · exact .inr ⟨by simpa using he, hb⟩

/-- The length of the text that is matched. -/
def rawLength (lexeme : Lexeme) : Nat := lexeme.raw.length

theorem settled_yieldHead (hp : Filler piece) :
    Settled rawLength yieldHead mid piece back ∨ joins mid back = true := by
  refine settled_behind_spelling yieldWord
    (fun rest => (starOrBoundary? rest).map fun star => .whole (yieldWord ++ star)) hp (by decide)
    (fun text h => ?_) (fun text rest h => ?_) (fun rest a h => ?_) fun rest he => ?_
  · simp only [yieldHead, h, Option.bind_eq_bind, Option.bind_none]
  · simp only [yieldHead, h, Option.bind_eq_bind, Option.bind_some]
    cases starOrBoundary? rest <;> rfl
  · obtain ⟨star, -, rfl⟩ := Option.map_eq_some_iff.mp h
    simp only [rawLength, Lexeme.raw, Lexeme.whole, List.length_append]
    omega
  · have hs : Settled List.length starOrBoundary? rest piece back ∨ rest = [] ∧ _ :=
      settled_starOrBoundary? hp
    rcases hs with h | ⟨rfl, hb⟩
    · exact .inl (h.map fun star => by simp [rawLength, Lexeme.raw, Lexeme.whole])
    · right
      rw [he, List.append_nil, ← List.nil_append yieldWord]
      exact joins_of_word hb rfl (by decide) (by decide)

/-- What `functionHead` reads behind `async`. -/
def behindAsync (rest : List Char) : Option Lexeme :=
  if (leadingSpace rest).isEmpty then none
  else (plainFunction? (afterSpace rest)).map fun head =>
    .whole (asyncWord ++ leadingSpace rest ++ head)

theorem functionHead_async {text rest : List Char} (h : afterSpelling? asyncWord text = some rest) :
    functionHead text = behindAsync rest := by
  unfold functionHead
  rw [h]
  rfl

theorem functionHead_plain {text : List Char} (h : afterSpelling? asyncWord text = none) :
    functionHead text = (plainFunction? text).map .whole := by
  unfold functionHead
  rw [h]

theorem settled_behindAsync {rest : List Char} (hp : Filler piece) (he : mid = asyncWord ++ rest) :
    Settled (fun lexeme => rawLength lexeme - asyncWord.length) behindAsync rest piece back ∨
      joins mid back = true := by
  have hlength (lead head : List Char) :
      rawLength (.whole (asyncWord ++ lead ++ head)) - asyncWord.length = lead.length + head.length := by
    simp [rawLength, Lexeme.raw, Lexeme.whole]
  -- a function behind white space that goes on behind the place is over it
  have hover {head : List Char} (hl : leadingSpace (rest ++ back) = rest ++ leadingSpace back)
      (hne : (leadingSpace (rest ++ back)).isEmpty = false)
      (hh : plainFunction? (afterSpace (rest ++ back)) = some head) :
      Settled (fun lexeme => rawLength lexeme - asyncWord.length) behindAsync rest piece back := by
    refine .inr ⟨.whole (asyncWord ++ leadingSpace (rest ++ back) ++ head), ?_, ?_⟩
    · simp only [behindAsync, hne, Bool.false_eq_true, if_false, hh, Option.map_some]
    · have hpos : functionWord.length ≤ head.length := by
        simp only [plainFunction?, Option.bind_eq_bind, Option.bind_eq_some_iff, Option.some.injEq] at hh
        obtain ⟨_, _, star, _, rfl⟩ := hh
        rw [List.length_append]
        omega
      have hword : functionWord.length = 8 := rfl
      dsimp only
      rw [hlength, hl, List.length_append]
      omega
  cases spaceCut hp rest back with
  | stops front c behind hr hc hfront hl hs =>
    by_cases hf : front = []
    · refine .inl (settled_of_none ?_ ?_)
      · simp [behindAsync, hl, hf]
      · simp [behindAsync, hl, hf]
    · have hgo (x : List Char) : behindAsync (rest ++ x) =
          (plainFunction? (c :: behind ++ x)).map fun head => .whole (asyncWord ++ front ++ head) := by
        simp [behindAsync, hl, hs, hf]
      have hs : Settled List.length plainFunction? (c :: behind) piece back ∨ _ :=
        settled_plainFunction? hp
      rcases hs with (hsame | ⟨head, hh, hlt⟩) | ⟨hword, hb⟩
      · exact .inl (.inl (by rw [hgo, hgo, hsame]))
      · refine .inl (.inr ⟨_, by rw [hgo, hh, Option.map_some], ?_⟩)
        dsimp only
        rw [hlength, hr, List.length_append]
        omega
      · right
        rw [he, hr, hword]
        exact joins_of_words hfront (by decide) (by decide) (by decide) hb
  | space hall hl hs hne' hs' =>
    cases hh : plainFunction? (afterSpace (rest ++ back)) with
    | none =>
      refine .inl (settled_of_none ?_ ?_)
      · simp [behindAsync, hh]
      · have hh' : plainFunction? (afterSpace (rest ++ (piece ++ back))) = none := by
          rw [hs', ← hs, hh]
        simp [behindAsync, hh']
    | some head =>
      cases hne : (leadingSpace (rest ++ back)).isEmpty with
      | false => exact .inl (hover hl hne hh)
      | true =>
        -- the two words are one name, which the space divides
        right
        obtain ⟨rfl, hnil⟩ := List.append_eq_nil_iff.mp (hl.symm.trans (List.isEmpty_iff.mp hne))
        have hback : afterSpace back = back := by
          have happ := leadingSpace_append back
          rwa [hnil] at happ
        rw [hs, hback] at hh
        have hb : atBoundary back = false := by
          simp only [plainFunction?, Option.bind_eq_bind, Option.bind_eq_some_iff] at hh
          obtain ⟨_, hw, _⟩ := hh
          rw [eq_append_of_afterSpelling? hw]
          exact (by decide : (!isNamePart 'f') = false)
        rw [he, List.append_nil, ← List.nil_append asyncWord]
        exact joins_of_word hb rfl (by decide) (by decide)
  | comment behind hall hl hs _ hs' =>
    have hno : behindAsync (rest ++ (piece ++ back)) = none := by
      have hh : plainFunction? ('/' :: behind) = none := rfl
      simp [behindAsync, hs', hh]
    cases hf : behindAsync (rest ++ back) with
    | none => exact .inl (settled_of_none hf hno)
    | some lexeme =>
      left
      unfold behindAsync at hf
      split at hf
      · cases hf
      · rename_i hne
        obtain ⟨head, hh, -⟩ := Option.map_eq_some_iff.mp hf
        exact hover hl (by simpa using hne) hh

theorem settled_functionHead (hp : Filler piece) (hm : mid ≠ []) :
    Settled rawLength functionHead mid piece back ∨ joins mid back = true := by
  have hplain (hno : afterSpelling? asyncWord (mid ++ back) = none)
      (hno' : afterSpelling? asyncWord (mid ++ (piece ++ back)) = none) :
      Settled rawLength functionHead mid piece back ∨ joins mid back = true := by
    have hs : Settled List.length plainFunction? mid piece back ∨ _ := settled_plainFunction? hp
    rcases hs with h | ⟨rfl, hb⟩
    · left
      have hmap : Settled rawLength (fun text => (plainFunction? text).map .whole) mid piece back :=
        h.map fun head => by simp [rawLength, Lexeme.raw, Lexeme.whole]
      rw [Settled] at hmap ⊢
      rw [functionHead_plain hno, functionHead_plain hno']
      exact hmap
    · right
      rw [← List.nil_append functionWord]
      exact joins_of_word hb rfl (by decide) (by decide)
  by_cases hl : mid.length < asyncWord.length
  · have hno' : afterSpelling? asyncWord (mid ++ (piece ++ back)) = none := by
      refine afterSpelling?_filler hp hl fun c hc => ne_filler_of_isNamePart ?_
      exact List.all_eq_true.mp (by decide : asyncWord.all isNamePart = true) c (List.mem_of_mem_drop hc)
    cases ha : afterSpelling? asyncWord (mid ++ back) with
    | none => exact hplain ha hno'
    | some rest =>
      -- the place is in `async`, and what stands in front of it starts nothing else
      left
      cases hf : functionHead (mid ++ back) with
      | none =>
        refine settled_of_none hf ?_
        obtain ⟨c, front, rfl⟩ := List.exists_cons_of_ne_nil hm
        have hc : c = 'a' := (List.cons.inj (eq_append_of_afterSpelling? ha)).1
        have hword : afterSpelling? functionWord (c :: front ++ (piece ++ back)) = none :=
          afterSpelling?_cons_of_ne (by rw [hc]; decide) _ _
        rw [functionHead_plain hno', plainFunction?, hword]
        rfl
      | some lexeme =>
        refine .inr ⟨lexeme, hf, ?_⟩
        rw [functionHead_async ha, behindAsync] at hf
        split at hf
        · cases hf
        · obtain ⟨head, -, rfl⟩ := Option.map_eq_some_iff.mp hf
          simp only [rawLength, Lexeme.raw, Lexeme.whole, List.length_append]
          omega
  · have hboth (x : List Char) := afterSpelling?_of_le (Nat.not_lt.mp hl) x
    cases ha : afterSpelling? asyncWord mid with
    | none => exact hplain (by rw [hboth, ha]; rfl) (by rw [hboth, ha]; rfl)
    | some rest =>
      have he := eq_append_of_afterSpelling? ha
      have hgo (x : List Char) : functionHead (mid ++ x) = behindAsync (rest ++ x) :=
        functionHead_async (by rw [hboth, ha]; rfl)
      refine (settled_behindAsync hp he).imp_left fun h => ?_
      rcases h with hsame | ⟨lexeme, hf, hlt⟩
      · exact .inl (by rw [hgo, hgo, hsame])
      · refine .inr ⟨lexeme, by rw [hgo, hf], ?_⟩
        dsimp only at hlt
        rw [he, List.length_append]
        omega

/-- What `exportDefault` reads behind `export`. -/
def behindExport (rest : List Char) : Option Lexeme :=
  if (leadingSpace rest).isEmpty then none
  else (afterWord? defaultWord (afterSpace rest)).map fun _ =>
    .whole (exportWord ++ leadingSpace rest ++ defaultWord)

theorem exportDefault_some {text rest : List Char} (h : afterWord? exportWord text = some rest) :
    exportDefault text = behindExport rest := by
  simp only [exportDefault, h, Option.bind_eq_bind, Option.bind_some, behindExport]
  split
  · rfl
  · cases afterWord? defaultWord (afterSpace rest) <;> rfl

theorem settled_behindExport {rest : List Char} (hp : Filler piece) (he : mid = exportWord ++ rest)
    (hb : atBoundary (rest ++ back) = true) :
    Settled (fun lexeme => rawLength lexeme - exportWord.length) behindExport rest piece back ∨
      joins mid back = true := by
  have hword : defaultWord.all isNamePart = true := by decide
  have hlength (lead : List Char) : rawLength (.whole (exportWord ++ lead ++ defaultWord)) -
      exportWord.length = lead.length + defaultWord.length := by
    simp [rawLength, Lexeme.raw, Lexeme.whole]
  have hdefault : defaultWord.length = 7 := rfl
  -- the second word goes over the place if the white space in front of it does
  have hover {lexeme : Lexeme} (hl : leadingSpace (rest ++ back) = rest ++ leadingSpace back)
      (hf : behindExport (rest ++ back) = some lexeme) :
      rest.length < rawLength lexeme - exportWord.length := by
    unfold behindExport at hf
    split at hf
    · cases hf
    · obtain ⟨_, -, rfl⟩ := Option.map_eq_some_iff.mp hf
      rw [hlength, hl, List.length_append]
      omega
  cases spaceCut hp rest back with
  | stops front c behind hr hc hfront hl hs =>
    by_cases hf : front = []
    · refine .inl (settled_of_none ?_ ?_)
      · simp [behindExport, hl, hf]
      · simp [behindExport, hl, hf]
    · have hgo (x : List Char) : behindExport (rest ++ x) =
          (afterWord? defaultWord (c :: behind ++ x)).map fun _ =>
            .whole (exportWord ++ front ++ defaultWord) := by
        simp [behindExport, hl, hs, hf]
      cases wordCut hp hword (c :: behind) back with
      | inside _ _ ha ha' => exact .inl (.inl (by rw [hgo, hgo, ha, ha']; rfl))
      | absent ha ha' => exact .inl (.inl (by rw [hgo, hgo, ha, ha']))
      | past _ hlt ha _ =>
        refine .inl (.inr ⟨_, by rw [hgo, ha, Option.map_some], ?_⟩)
        dsimp only
        rw [hlength, hr, List.length_append]
        omega
      | joined hword' hb' _ _ =>
        right
        rw [he, hr, hword']
        exact joins_of_words hfront (by decide) hword (by decide) hb'
  | space hall hl hs _ hs' =>
    left
    cases hf : behindExport (rest ++ back) with
    | some lexeme => exact .inr ⟨lexeme, hf, hover hl hf⟩
    | none =>
      refine settled_of_none hf ?_
      have hnone : afterWord? defaultWord (afterSpace back) = none := by
        cases hne : (leadingSpace (rest ++ back)).isEmpty with
        | false => simpa [behindExport, hne, hs] using hf
        | true =>
          -- no white space is there, and no longer name goes on
          obtain ⟨rfl, hnil⟩ := List.append_eq_nil_iff.mp (hl.symm.trans (List.isEmpty_iff.mp hne))
          have hback : afterSpace back = back := by
            have happ := leadingSpace_append back
            rwa [hnil] at happ
          rw [hback]
          cases ha : afterWord? defaultWord back with
          | none => rfl
          | some _ =>
            rw [List.nil_append, eq_append_of_afterWord? ha] at hb
            exact absurd hb (by simp [defaultWord, atBoundary, (by decide : isNamePart 'd' = true)])
      simp [behindExport, hs', hnone]
  | comment behind _ hl _ _ hs' =>
    left
    cases hf : behindExport (rest ++ back) with
    | some lexeme => exact .inr ⟨lexeme, hf, hover hl hf⟩
    | none =>
      have hnone : afterWord? defaultWord ('/' :: behind) = none := rfl
      exact settled_of_none hf (by simp [behindExport, hs', hnone])

theorem settled_exportDefault (hp : Filler piece) :
    Settled rawLength exportDefault mid piece back ∨ joins mid back = true := by
  have hword : exportWord.all isNamePart = true := by decide
  have hsettled : Settled rawLength exportDefault mid piece back ∨
      mid = exportWord ∧ atBoundary back = false ∨ joins mid back = true := by
    refine settled_behind_word exportWord behindExport hp hword (fun text h => ?_)
      (fun text rest h => exportDefault_some h) (fun rest lexeme h => ?_)
      fun rest he hb => settled_behindExport hp he hb
    · simp only [exportDefault, h, Option.bind_eq_bind, Option.bind_none]
    · unfold behindExport at h
      split at h
      · cases h
      · obtain ⟨_, -, rfl⟩ := Option.map_eq_some_iff.mp h
        simp only [rawLength, Lexeme.raw, Lexeme.whole, List.length_append]
        omega
  rcases hsettled with h | ⟨rfl, hb⟩ | h
  · exact .inl h
  · right
    rw [← List.nil_append exportWord]
    exact joins_of_word hb rfl hword (by decide)
  · exact .inr h

/-- The parenthesis behind the words of the head of a loop. -/
def loopParen (words rest : List Char) : Option Lexeme :=
  match afterSpace rest with
  | '(' :: _ => some ⟨[], words, leadingSpace rest ++ ['(']⟩
  | _ => none

theorem loopParen_open {words rest behind : List Char} (h : afterSpace rest = '(' :: behind) :
    loopParen words rest = some ⟨[], words, leadingSpace rest ++ ['(']⟩ := by
  unfold loopParen
  rw [h]
  rfl

theorem loopParen_none {words rest : List Char} (h : (afterSpace rest).head? ≠ some '(') :
    loopParen words rest = none := by
  unfold loopParen
  split
  · rename_i hs
    exact absurd (by rw [hs]; rfl) h
  · rfl

theorem rawLength_loopParen {words rest : List Char} {lexeme : Lexeme}
    (h : loopParen words rest = some lexeme) :
    rawLength lexeme = words.length + (leadingSpace rest).length + 1 := by
  unfold loopParen at h
  split at h
  · cases h
    simp [rawLength, Lexeme.raw]
    omega
  · cases h

/-- The parenthesis stands in front of the place, or behind it with white space that goes up to it. -/
theorem settled_loopParen (hp : Filler piece) (words : List Char) :
    Settled (fun lexeme => rawLength lexeme - words.length) (loopParen words) mid piece back := by
  have hover {behind : List Char} (hl : leadingSpace (mid ++ back) = mid ++ leadingSpace back)
      (hs : afterSpace (mid ++ back) = '(' :: behind) :
      Settled (fun lexeme => rawLength lexeme - words.length) (loopParen words) mid piece back := by
    refine .inr ⟨_, loopParen_open hs, ?_⟩
    dsimp only
    rw [rawLength_loopParen (loopParen_open hs), hl, List.length_append]
    omega
  cases spaceCut hp mid back with
  | stops front c rest _ _ _ hl hs =>
    left
    by_cases hc : c = '('
    · subst hc
      rw [loopParen_open (hs _), loopParen_open (hs _), hl, hl]
    · rw [loopParen_none (by simp [hs, hc]), loopParen_none (by simp [hs, hc])]
  | space _ hl hs _ hs' =>
    by_cases hc : (afterSpace back).head? = some '('
    · obtain ⟨behind, hbehind⟩ := List.head?_eq_some_iff.mp hc
      exact hover hl (hs.trans hbehind)
    · exact settled_of_none (loopParen_none (by rwa [hs])) (loopParen_none (by rwa [hs']))
  | comment rest _ hl hs _ hs' =>
    by_cases hc : (afterSpace back).head? = some '('
    · obtain ⟨behind, hbehind⟩ := List.head?_eq_some_iff.mp hc
      exact hover hl (hs.trans hbehind)
    · exact settled_of_none (loopParen_none (by rwa [hs])) (loopParen_none (by simp [hs']))

/-- What `forHead` reads behind `for`. -/
def behindFor (rest : List Char) : Option Lexeme :=
  if (leadingSpace rest).isEmpty then loopParen forWord rest
  else match afterWord? awaitWord (afterSpace rest) with
    | some behind => loopParen (forWord ++ leadingSpace rest ++ awaitWord) behind
    | none => loopParen forWord rest

theorem forHead_some {text rest : List Char} (h : afterWord? forWord text = some rest) :
    forHead text = behindFor rest := by
  simp only [forHead, forWords?, h, Option.bind_eq_bind, Option.bind_some, behindFor]
  split
  · rfl
  · cases afterWord? awaitWord (afterSpace rest) <;> rfl

/-- The head of a loop is at least as long as its first word, with the white space behind it. -/
theorem rawLength_behindFor {rest : List Char} {lexeme : Lexeme} (h : behindFor rest = some lexeme) :
    forWord.length + (leadingSpace rest).length < rawLength lexeme := by
  unfold behindFor at h
  split at h
  · rw [rawLength_loopParen h]
    omega
  · split at h
    · rw [rawLength_loopParen h]
      simp only [List.length_append]
      omega
    · rw [rawLength_loopParen h]
      omega

theorem settled_behindFor {rest : List Char} (hp : Filler piece) (he : mid = forWord ++ rest)
    (hb : atBoundary (rest ++ back) = true) :
    Settled (fun lexeme => rawLength lexeme - forWord.length) behindFor rest piece back ∨
      joins mid back = true := by
  have hword : awaitWord.all isNamePart = true := by decide
  have hover {lexeme : Lexeme} (hl : leadingSpace (rest ++ back) = rest ++ leadingSpace back)
      (hf : behindFor (rest ++ back) = some lexeme) :
      Settled (fun lexeme => rawLength lexeme - forWord.length) behindFor rest piece back := by
    have hlength := rawLength_behindFor hf
    rw [hl, List.length_append] at hlength
    refine .inr ⟨lexeme, hf, ?_⟩
    dsimp only
    omega
  have hsingle (h : behindFor (rest ++ back) = loopParen forWord (rest ++ back))
      (h' : behindFor (rest ++ (piece ++ back)) = loopParen forWord (rest ++ (piece ++ back))) :
      Settled (fun lexeme => rawLength lexeme - forWord.length) behindFor rest piece back := by
    have hs : Settled _ (loopParen forWord) rest piece back := settled_loopParen hp forWord
    rw [Settled] at hs ⊢
    rw [h, h']
    exact hs
  cases spaceCut hp rest back with
  | stops front c behind hr _ hfront hl hs =>
    by_cases hf : front = []
    · left
      exact hsingle (by simp [behindFor, hl, hf]) (by simp [behindFor, hl, hf])
    · have hgo (x : List Char) : behindFor (rest ++ x) =
          match afterWord? awaitWord (c :: behind ++ x) with
          | some last => loopParen (forWord ++ front ++ awaitWord) last
          | none => loopParen forWord (rest ++ x) := by
        simp [behindFor, hl, hs, hf]
      cases wordCut hp hword (c :: behind) back with
      | inside last hlast ha ha' =>
        left
        have hs : Settled _ (loopParen (forWord ++ front ++ awaitWord)) last piece back :=
          settled_loopParen hp _
        rw [Settled, hgo, hgo, ha, ha']
        refine hs.imp_right fun ⟨lexeme, hf, hlt⟩ => ⟨lexeme, hf, ?_⟩
        dsimp only at hlt ⊢
        rw [hr, hlast]
        simp only [List.length_append] at hlt ⊢
        omega
      | absent ha ha' => exact .inl (hsingle (by rw [hgo, ha]) (by rw [hgo, ha']))
      | past last hlt ha ha' =>
        left
        cases hf : behindFor (rest ++ back) with
        | some lexeme =>
          refine .inr ⟨lexeme, hf, ?_⟩
          rw [hgo, ha] at hf
          dsimp only at hf ⊢
          rw [rawLength_loopParen hf, hr]
          simp only [List.length_append] at hlt ⊢
          omega
        | none =>
          -- behind the white space stands the beginning of the second word, and no parenthesis
          have hc : c = 'a' := (List.cons.inj (eq_append_of_afterWord? ha)).1
          refine settled_of_none hf ?_
          rw [hgo, ha']
          exact loopParen_none (by simp [hs, hc])
      | joined hlast hb' _ _ =>
        right
        rw [he, hr, hlast]
        exact joins_of_words hfront (by decide) hword (by decide) hb'
  | space _ hl hs hne' hs' =>
    left
    cases hf : behindFor (rest ++ back) with
    | some lexeme => exact hover hl hf
    | none =>
      refine settled_of_none hf ?_
      have hparen : ∀ words, loopParen words (rest ++ back) = none →
          loopParen words (rest ++ (piece ++ back)) = none := by
        intro words hnone
        rcases settled_loopParen hp words with hsame | ⟨_, hsome, -⟩
        · exact hsame.trans hnone
        · rw [hnone] at hsome
          cases hsome
      simp only [behindFor, hne', Bool.false_eq_true, if_false, hs']
      cases hne : (leadingSpace (rest ++ back)).isEmpty with
      | false =>
        simp only [behindFor, hne, Bool.false_eq_true, if_false, hs] at hf
        cases ha : afterWord? awaitWord (afterSpace back) with
        | none =>
          rw [ha] at hf
          exact hparen _ hf
        | some last =>
          rw [ha] at hf
          dsimp only at hf ⊢
          unfold loopParen at hf ⊢
          split at hf
          · cases hf
          · rfl
      | true =>
        -- no white space is there, and no longer name goes on
        simp only [behindFor, hne, if_true] at hf
        obtain ⟨rfl, hnil⟩ := List.append_eq_nil_iff.mp (hl.symm.trans (List.isEmpty_iff.mp hne))
        have hback : afterSpace back = back := by
          have happ := leadingSpace_append back
          rwa [hnil] at happ
        rw [hback]
        cases ha : afterWord? awaitWord back with
        | none => exact hparen _ hf
        | some _ =>
          rw [List.nil_append, eq_append_of_afterWord? ha] at hb
          exact absurd hb (by simp [awaitWord, atBoundary, (by decide : isNamePart 'a' = true)])
  | comment behind _ hl _ _ hs' =>
    left
    cases hf : behindFor (rest ++ back) with
    | some lexeme => exact hover hl hf
    | none =>
      refine settled_of_none hf ?_
      have hnone : afterWord? awaitWord ('/' :: behind) = none := rfl
      have hparen : loopParen forWord (rest ++ (piece ++ back)) = none :=
        loopParen_none (by simp [hs'])
      simp [behindFor, hs', hnone, hparen]

theorem settled_forHead (hp : Filler piece) :
    Settled rawLength forHead mid piece back ∨ joins mid back = true := by
  have hword : forWord.all isNamePart = true := by decide
  have hsettled : Settled rawLength forHead mid piece back ∨
      mid = forWord ∧ atBoundary back = false ∨ joins mid back = true := by
    refine settled_behind_word forWord behindFor hp hword (fun text h => ?_)
      (fun text rest h => forHead_some h) (fun rest lexeme h => ?_)
      fun rest he hb => settled_behindFor hp he hb
    · simp only [forHead, forWords?, h, Option.bind_eq_bind, Option.bind_none]
    · have hlength := rawLength_behindFor h
      omega
  rcases hsettled with h | ⟨rfl, hb⟩ | h
  · exact .inl h
  · right
    rw [← List.nil_append forWord]
    exact joins_of_word hb rfl hword (by decide)
  · exact .inr h

theorem name?_filler (hp : Filler piece) : name? (piece ++ back) = none := by
  obtain ⟨c, rest, rfl, rfl | rfl⟩ := hp.exists_cons
  · simp [name?, (by decide : isNameStart ' ' = false)]
  · simp [name?, (by decide : isNameStart '/' = false)]

theorem name?_of_boundary {text : List Char} (h : atBoundary text = true) : name? text = none := by
  cases text with
  | nil => rfl
  | cons c text =>
    refine if_neg fun hc => ?_
    simp [atBoundary, isNamePart_of_isNameStart hc] at h

theorem settled_name? (hp : Filler piece) : Settled List.length name? mid piece back := by
  cases mid with
  | nil =>
    cases hn : name? back with
    | none =>
      have hn' : name? (piece ++ back) = none := name?_filler hp
      exact settled_of_none hn hn'
    | some name =>
      refine .inr ⟨name, hn, ?_⟩
      cases back with
      | nil => cases hn
      | cons c back =>
        rw [name?] at hn
        split at hn
        · cases hn
          exact Nat.succ_pos _
        · cases hn
  | cons c mid =>
    have hgo (x : List Char) : name? (c :: mid ++ x) =
        if isNameStart c then some (c :: (mid ++ x).takeWhile isNamePart) else none := rfl
    by_cases hc : isNameStart c = true
    · cases runCut isNamePart mid with
      | stops front _ _ _ _ ht _ => exact .inl (by rw [hgo, hgo, ht, ht])
      | through _ ht _ =>
        have hpiece : (piece ++ back).takeWhile isNamePart = [] :=
          hp.takeWhile (by decide) (by decide)
        by_cases hb : back.takeWhile isNamePart = []
        · exact .inl (by rw [hgo, hgo, ht, ht, hpiece, hb])
        · refine .inr ⟨_, (hgo back).trans (if_pos hc), ?_⟩
          have hpos := List.length_pos_iff.mpr hb
          simp only [ht, List.length_cons, List.length_append]
          omega
    · exact settled_of_none ((hgo back).trans (if_neg hc)) ((hgo _).trans (if_neg hc))

theorem settled_identifier (hp : Filler piece) : Settled rawLength identifier mid piece back :=
  (settled_name? hp).map fun name => by simp [rawLength, Lexeme.raw, Lexeme.whole]

/-- What `jump` makes of the text behind its word. -/
def behindJump (word rest : List Char) : Lexeme :=
  if (rest.takeWhile isGap).isEmpty then ⟨word, [], []⟩
  else match name? (rest.dropWhile isGap) with
    | some label => ⟨word ++ rest.takeWhile isGap, label, []⟩
    | none => ⟨word, [], []⟩

theorem jump_some {word text rest : List Char} (h : afterWord? word text = some rest) :
    jump word text = some (behindJump word rest) := by
  simp only [jump, h, Option.bind_eq_bind, Option.bind_some, behindJump]
  split
  · rfl
  · cases name? (rest.dropWhile isGap) <;> rfl

theorem behindJump_plain {word rest : List Char}
    (h : (rest.takeWhile isGap).isEmpty = true ∨ name? (rest.dropWhile isGap) = none) :
    behindJump word rest = ⟨word, [], []⟩ := by
  unfold behindJump
  rcases h with h | h
  · rw [if_pos h]
  · rw [h, ite_self]

theorem behindJump_label {word rest label : List Char} (hne : (rest.takeWhile isGap).isEmpty = false)
    (h : name? (rest.dropWhile isGap) = some label) :
    behindJump word rest = ⟨word ++ rest.takeWhile isGap, label, []⟩ := by
  unfold behindJump
  rw [hne, if_neg Bool.false_ne_true, h]

/-- A label stands in front of the place or goes over it, and a piece does not make one. -/
theorem settled_behindJump {word rest : List Char} (hp : Filler piece)
    (hb : atBoundary (rest ++ back) = true) :
    Settled (fun lexeme => rawLength lexeme - word.length) (fun rest => some (behindJump word rest))
      rest piece back := by
  cases runCut isGap rest with
  | stops front c behind hr hc ht hd =>
    cases front with
    | nil =>
      have hgo (x : List Char) : behindJump word (rest ++ x) = ⟨word, [], []⟩ :=
        behindJump_plain (.inl (by rw [ht]; rfl))
      exact .inl (congrArg some ((hgo _).trans (hgo _).symm))
    | cons first front =>
      have hs : Settled List.length name? (c :: behind) piece back := settled_name? hp
      rcases hs with hsame | ⟨label, hl, hlt⟩
      · left
        simp only [List.cons_append] at hsame
        simp only [behindJump, ht, hd, hsame]
      · right
        refine ⟨_, rfl, ?_⟩
        rw [behindJump_label (by simp [ht]) (by rw [hd]; exact hl), ht, hr]
        simp only [rawLength, Lexeme.raw, List.length_append, List.length_cons, List.append_nil] at hlt ⊢
        omega
  | through _ ht hd =>
    -- what stands behind the gap is no label, or it is found behind the place
    by_cases hplain : ((rest ++ back).takeWhile isGap).isEmpty = true ∨
        name? ((rest ++ back).dropWhile isGap) = none
    · refine .inl (congrArg some ((behindJump_plain (.inr ?_)).trans (behindJump_plain hplain).symm))
      rw [hd]
      cases hp with
      | comment _ _ =>
        rw [List.cons_append, List.dropWhile_cons_of_neg (by decide)]
        simp [name?, (by decide : isNameStart '/' = false)]
      | space =>
        have hback : name? (back.dropWhile isGap) = none := by
          rcases hplain with hempty | hnone
          · rw [ht, List.isEmpty_iff, List.append_eq_nil_iff] at hempty
            obtain ⟨rfl, hgap⟩ := hempty
            have hdrop : back.dropWhile isGap = back := by
              have happ := List.takeWhile_append_dropWhile (p := isGap) (l := back)
              rwa [hgap, List.nil_append] at happ
            rw [hdrop]
            exact name?_of_boundary hb
          · rwa [hd] at hnone
        exact hback
    · rw [not_or, Bool.not_eq_true] at hplain
      obtain ⟨hne, hsome⟩ := hplain
      obtain ⟨label, hl⟩ := Option.ne_none_iff_exists'.mp hsome
      refine .inr ⟨_, rfl, ?_⟩
      have hpos : label ≠ [] := by
        rintro rfl
        cases hcut : (rest ++ back).dropWhile isGap with
        | nil =>
          rw [hcut] at hl
          cases hl
        | cons c text =>
          rw [hcut, name?] at hl
          split at hl
          · cases hl
          · cases hl
      have hlen := List.length_pos_iff.mpr hpos
      rw [behindJump_label hne hl, ht]
      simp only [rawLength, Lexeme.raw, List.length_append, List.append_nil]
      omega

theorem settled_jump {word : List Char} (hp : Filler piece) (hword : word.all isNamePart = true)
    (hne : word ≠ []) : Settled rawLength (jump word) mid piece back ∨ joins mid back = true := by
  have hsettled : Settled rawLength (jump word) mid piece back ∨
      mid = word ∧ atBoundary back = false ∨ False := by
    refine settled_behind_word word (fun rest => some (behindJump word rest)) hp hword
      (fun text h => ?_) (fun text rest h => jump_some h) (fun rest lexeme h => ?_)
      fun rest _ hb => .inl (settled_behindJump hp hb)
    · simp only [jump, h, Option.bind_eq_bind, Option.bind_none]
    · cases h
      unfold behindJump
      split
      · simp [rawLength, Lexeme.raw]
      · split
        · simp only [rawLength, Lexeme.raw, List.length_append]
          omega
        · simp [rawLength, Lexeme.raw]
  rcases hsettled with h | ⟨rfl, hb⟩ | hno
  · exact .inl h
  · right
    rw [← List.nil_append mid]
    exact joins_of_word hb rfl hword hne
  · exact hno.elim

/-- Whether white space stands at the start of a text. -/
def startsSpaced (text : List Char) : Bool := text.head?.any isSpace

/-- One word before white space. -/
def spacedWord (word text : List Char) : Option Lexeme :=
  match afterWord? word text with
  | some (c :: _) => if isSpace c then some (.whole word) else none
  | _ => none

theorem settled_spacedWord {word : List Char} (hp : Filler piece)
    (hword : word.all isNamePart = true) (hne : word ≠ []) :
    Settled rawLength (spacedWord word) mid piece back ∨ joins mid back = true ∨
      mid = word ∧ startsSpaced piece ≠ startsSpaced back := by
  have hspaced {text rest : List Char} (h : afterWord? word text = some rest) :
      spacedWord word text = if startsSpaced rest then some (.whole word) else none := by
    unfold spacedWord
    rw [h]
    cases rest <;> rfl
  have hnone {text : List Char} (h : afterWord? word text = none) : spacedWord word text = none := by
    unfold spacedWord
    rw [h]
  cases wordCut hp hword mid back with
  | inside rest he ha ha' =>
    cases rest with
    | cons c rest => exact .inl (.inl (by rw [hspaced ha, hspaced ha']; rfl))
    | nil =>
      by_cases hs : startsSpaced piece = startsSpaced back
      · left
        left
        have hpiece : startsSpaced (piece ++ back) = startsSpaced piece := by
          obtain ⟨c, rest, rfl, -⟩ := hp.exists_cons
          rfl
        rw [hspaced ha, hspaced ha', List.nil_append, List.nil_append, hpiece, hs]
      · exact .inr (.inr ⟨by simpa using he, hs⟩)
  | absent ha ha' => exact .inl (settled_of_none (hnone ha) (hnone ha'))
  | past rest hl ha ha' =>
    left
    cases hf : spacedWord word (mid ++ back) with
    | none => exact settled_of_none hf (hnone ha')
    | some lexeme =>
      refine .inr ⟨lexeme, hf, ?_⟩
      rw [hspaced ha] at hf
      split at hf
      · cases hf
        simpa [rawLength, Lexeme.raw, Lexeme.whole] using hl
      · cases hf
  | joined he hb _ _ =>
    right
    left
    rw [he, ← List.nil_append word]
    exact joins_of_word hb rfl hword hne

end Keywords

end Scan

end ScriptTree
