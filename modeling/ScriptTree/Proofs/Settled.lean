import ScriptTree.Proofs.WholeSource

/-!
What a lexical form finds in front of a place where a space or a comment is put.

Most forms settle there: what they match up to the place they still match, and they match nothing
new. A form that looks past what it matches, such as a word that wants white space behind it or a
keyword that may be followed by another one, can tell the difference.
-/

namespace ScriptTree

/-- What can be put between two tokens on a line: a space, or a block comment without a line feed. -/
inductive Filler : List Char → Prop
  | space : Filler [' ']
  | comment {body : List Char} : Scan.commentTail? body = some body → '\n' ∉ body →
    Filler ('/' :: '*' :: body)

/-- A reader settles at a place, in front of which it starts, if it finds the same when a piece is put
there, or if without the piece it goes over the place. -/
def Settled {α : Type} (size : α → Nat) (find : List Char → Option α) (mid piece back : List Char) :
    Prop :=
  find (mid ++ (piece ++ back)) = find (mid ++ back) ∨
    ∃ found, find (mid ++ back) = some found ∧ mid.length < size found

/-- Whether a place lies in a name to which only words and white space lead. -/
def joins (mid back : List Char) : Bool :=
  !atBoundary back && mid.getLast?.any isNamePart && mid.all fun c => isNamePart c || isSpace c

/-- How a run of characters of a class lies to a place: it stops in front of it, or goes through. -/
inductive RunCut (p : Char → Bool) (mid : List Char) : Prop
  | stops (front : List Char) (c : Char) (rest : List Char) : mid = front ++ c :: rest →
    p c = false → (∀ x, (mid ++ x).takeWhile p = front) →
    (∀ x, (mid ++ x).dropWhile p = c :: (rest ++ x)) → RunCut p mid
  | through : (∀ c ∈ mid, p c = true) → (∀ x, (mid ++ x).takeWhile p = mid ++ x.takeWhile p) →
    (∀ x, (mid ++ x).dropWhile p = x.dropWhile p) → RunCut p mid

theorem runCut (p : Char → Bool) (mid : List Char) : RunCut p mid := by
  induction mid with
  | nil => exact .through nofun (fun _ => rfl) fun _ => rfl
  | cons d mid ih =>
    by_cases hd : p d = true
    · cases ih with
      | stops front c rest he hc ht hr =>
        refine .stops (d :: front) c rest (by rw [he, List.cons_append]) hc (fun x => ?_) fun x => ?_
        · rw [List.cons_append, List.takeWhile_cons_of_pos hd, ht]
        · rw [List.cons_append, List.dropWhile_cons_of_pos hd, hr]
      | through hall ht hr =>
        refine .through (List.forall_mem_cons.mpr ⟨hd, hall⟩) (fun x => ?_) fun x => ?_
        · rw [List.cons_append, List.takeWhile_cons_of_pos hd, ht, List.cons_append]
        · rw [List.cons_append, List.dropWhile_cons_of_pos hd, hr]
    · rw [Bool.not_eq_true] at hd
      refine .stops [] d mid rfl hd (fun x => ?_) fun x => ?_
      · rw [List.cons_append, List.takeWhile_cons_of_neg (by simp [hd])]
      · rw [List.cons_append, List.dropWhile_cons_of_neg (by simp [hd])]

section Fillers

variable {piece back : List Char}

theorem Filler.exists_cons (h : Filler piece) :
    ∃ c rest, piece = c :: rest ∧ (c = ' ' ∨ c = '/') := by
  cases h with
  | space => exact ⟨' ', [], rfl, .inl rfl⟩
  | comment _ _ => exact ⟨'/', _, rfl, .inr rfl⟩

/-- A class that neither of the first characters is in has no run into the piece. -/
theorem Filler.takeWhile (h : Filler piece) {p : Char → Bool} (hs : p ' ' = false)
    (hc : p '/' = false) : (piece ++ back).takeWhile p = [] := by
  obtain ⟨c, rest, rfl, rfl | rfl⟩ := h.exists_cons
  · exact List.takeWhile_cons_of_neg (by simp [hs])
  · exact List.takeWhile_cons_of_neg (by simp [hc])

theorem Filler.atBoundary (h : Filler piece) : atBoundary (piece ++ back) = true := by
  obtain ⟨c, rest, rfl, rfl | rfl⟩ := h.exists_cons
  · exact (by decide : (!isNamePart ' ') = true)
  · exact (by decide : (!isNamePart '/') = true)

end Fillers

section Parts

variable {α β : Type} {size : α → Nat} {size' : β → Nat} {find : List Char → Option α}
  {find' : List Char → Option β} {mid piece back : List Char}

/-- A reader that makes something else of what is found settles as well, unless that seems shorter. -/
theorem Settled.map {f : α → β} (h : Settled size find mid piece back)
    (hsize : ∀ a, size a ≤ size' (f a)) :
    Settled size' (fun text => (find text).map f) mid piece back := by
  rcases h with hsame | ⟨a, ha, hover⟩
  · exact .inl (congrArg (Option.map f) hsame)
  · exact .inr ⟨f a, congrArg (Option.map f) ha, hover.trans_le (hsize a)⟩

/-- What stays as it is settles, if a reader finds nothing new. -/
theorem settled_of_none (h : find (mid ++ back) = none) (h' : find (mid ++ (piece ++ back)) = none) :
    Settled size find mid piece back :=
  .inl (h'.trans h.symm)

end Parts

section Words

variable {word mid piece back : List Char}

theorem joins_of_word {front : List Char} (hb : atBoundary back = false)
    (hfront : front.all (fun c => isNamePart c || isSpace c) = true)
    (hword : word.all isNamePart = true) (hne : word ≠ []) : joins (front ++ word) back = true := by
  have hlast : (front ++ word).getLast?.any isNamePart = true := by
    have hlast : (front ++ word).getLast? = some (word.getLast hne) := by
      rw [List.getLast?_append, List.getLast?_eq_some_getLast hne, Option.some_or]
    rw [hlast, Option.any_some]
    exact List.all_eq_true.mp hword _ (List.getLast_mem hne)
  have hall : word.all (fun c => isNamePart c || isSpace c) = true := by
    rw [List.all_eq_true] at hword ⊢
    intro c hc
    rw [hword c hc, Bool.true_or]
  rw [joins, hb, hlast, List.all_append, hfront, hall]
  rfl

theorem joins_of_words {lead first second : List Char} (hlead : ∀ c ∈ lead, isSpace c = true)
    (hfirst : first.all isNamePart = true) (hsecond : second.all isNamePart = true)
    (hne : second ≠ []) (hb : atBoundary back = false) :
    joins (first ++ (lead ++ second)) back = true := by
  rw [← List.append_assoc]
  refine joins_of_word hb ?_ hsecond hne
  rw [List.all_append, Bool.and_eq_true]
  rw [List.all_eq_true] at hfirst
  constructor
  · rw [List.all_eq_true]
    intro c hc
    rw [hfirst c hc, Bool.true_or]
  · rw [List.all_eq_true]
    intro c hc
    rw [hlead c hc, Bool.or_true]

theorem afterSpelling?_of_le (h : word.length ≤ mid.length) (x : List Char) :
    afterSpelling? word (mid ++ x) = (afterSpelling? word mid).map (· ++ x) := by
  induction word generalizing mid with
  | nil => rfl
  | cons s word ih =>
    cases mid with
    | nil => exact absurd h (by simp)
    | cons c mid =>
      rw [List.cons_append, afterSpelling?, afterSpelling?]
      split
      · exact ih (by simpa using h)
      · rfl

/-- A spelling that goes over the place does not go on with the piece. -/
theorem afterSpelling?_filler (hp : Filler piece) (h : mid.length < word.length)
    (hs : ∀ c ∈ word.drop mid.length, c ≠ ' ' ∧ c ≠ '/') :
    afterSpelling? word (mid ++ (piece ++ back)) = none := by
  cases ha : afterSpelling? word (mid ++ (piece ++ back)) with
  | none => rfl
  | some rest =>
    obtain ⟨c, tail, rfl, hc⟩ := hp.exists_cons
    have ht := eq_append_of_afterSpelling? ha
    -- the first character of the piece is the one of the spelling behind the place
    have hd := congrArg (List.drop mid.length) ht
    rw [List.drop_left, List.drop_append_of_le_length h.le] at hd
    have hne : word.drop mid.length ≠ [] := by
      rw [Ne, List.drop_eq_nil_iff]
      omega
    obtain ⟨s, spelling, hsp⟩ := List.exists_cons_of_ne_nil hne
    rw [hsp, List.cons_append, List.cons_append] at hd
    obtain rfl := (List.cons.inj hd).1
    have hno := hs c (by rw [hsp]; exact List.mem_cons_self)
    rcases hc with rfl | rfl
    · exact absurd rfl hno.1
    · exact absurd rfl hno.2

/-- How a word lies to a place that it might be found in front of. -/
inductive WordCut (word mid piece back : List Char) : Prop
  | inside (rest : List Char) : mid = word ++ rest →
    afterWord? word (mid ++ back) = some (rest ++ back) →
    afterWord? word (mid ++ (piece ++ back)) = some (rest ++ (piece ++ back)) →
    WordCut word mid piece back
  | absent : afterWord? word (mid ++ back) = none →
    afterWord? word (mid ++ (piece ++ back)) = none → WordCut word mid piece back
  | past (rest : List Char) : mid.length < word.length →
    afterWord? word (mid ++ back) = some rest →
    afterWord? word (mid ++ (piece ++ back)) = none → WordCut word mid piece back
  | joined : mid = word → atBoundary back = false → afterWord? word (mid ++ back) = none →
    afterWord? word (mid ++ (piece ++ back)) = some (piece ++ back) → WordCut word mid piece back

theorem ne_filler_of_isNamePart {c : Char} (h : isNamePart c = true) : c ≠ ' ' ∧ c ≠ '/' := by
  constructor
  · rintro rfl
    exact absurd h (by decide)
  · rintro rfl
    exact absurd h (by decide)

theorem wordCut (hp : Filler piece) (hword : word.all isNamePart = true) (mid back : List Char) :
    WordCut word mid piece back := by
  rw [List.all_eq_true] at hword
  by_cases hl : mid.length < word.length
  · have hno : afterSpelling? word (mid ++ (piece ++ back)) = none :=
      afterSpelling?_filler hp hl fun c hc => ne_filler_of_isNamePart (hword c (List.mem_of_mem_drop hc))
    have hnone : afterWord? word (mid ++ (piece ++ back)) = none := by
      rw [afterWord?, hno]
      rfl
    cases ha : afterWord? word (mid ++ back) with
    | none => exact .absent ha hnone
    | some rest => exact .past rest hl ha hnone
  · have hle := Nat.not_lt.mp hl
    have hboth (x : List Char) := afterSpelling?_of_le hle x
    cases hm : afterSpelling? word mid with
    | none =>
      refine .absent ?_ ?_
      · rw [afterWord?, hboth, hm]
        rfl
      · rw [afterWord?, hboth, hm]
        rfl
    | some rest =>
      have he := eq_append_of_afterSpelling? hm
      have hafter (x : List Char) (hb : atBoundary (rest ++ x) = true) :
          afterWord? word (mid ++ x) = some (rest ++ x) := by
        rw [afterWord?, hboth, hm, Option.map_some, Option.filter_some, if_pos hb]
      have hno (x : List Char) (hb : atBoundary (rest ++ x) = false) :
          afterWord? word (mid ++ x) = none := by
        rw [afterWord?, hboth, hm, Option.map_some, Option.filter_some, if_neg (by simp [hb])]
      cases rest with
      | cons c rest =>
        -- the character behind the word is in front of the place
        by_cases hb : isNamePart c = true
        · exact .absent (hno _ (by simp [atBoundary, hb])) (hno _ (by simp [atBoundary, hb]))
        · exact .inside (c :: rest) he (hafter _ (by simp [atBoundary, hb]))
            (hafter _ (by simp [atBoundary, hb]))
      | nil =>
        have hpiece : afterWord? word (mid ++ (piece ++ back)) = some ([] ++ (piece ++ back)) :=
          hafter _ hp.atBoundary
        cases hb : atBoundary back with
        | true => exact .inside [] he (hafter _ hb) hpiece
        | false => exact .joined (by simpa using he) hb (hno _ hb) hpiece

end Words

/-- How white space lies to a place: it ends in front of it, or it goes on behind it, where a space
adds to it and a comment ends it. -/
inductive SpaceCut (mid piece back : List Char) : Prop
  | stops (front : List Char) (c : Char) (rest : List Char) : mid = front ++ c :: rest →
    isSpace c = false → (∀ c ∈ front, isSpace c = true) → (∀ x, leadingSpace (mid ++ x) = front) →
    (∀ x, afterSpace (mid ++ x) = c :: (rest ++ x)) → SpaceCut mid piece back
  | space : (∀ c ∈ mid, isSpace c = true) → leadingSpace (mid ++ back) = mid ++ leadingSpace back →
    afterSpace (mid ++ back) = afterSpace back → (leadingSpace (mid ++ (piece ++ back))).isEmpty = false →
    afterSpace (mid ++ (piece ++ back)) = afterSpace back → SpaceCut mid piece back
  | comment (rest : List Char) : (∀ c ∈ mid, isSpace c = true) →
    leadingSpace (mid ++ back) = mid ++ leadingSpace back →
    afterSpace (mid ++ back) = afterSpace back → leadingSpace (mid ++ (piece ++ back)) = mid →
    afterSpace (mid ++ (piece ++ back)) = '/' :: rest → SpaceCut mid piece back

theorem spaceCut {piece : List Char} (hp : Filler piece) (mid back : List Char) :
    SpaceCut mid piece back := by
  cases runCut isSpace mid with
  | stops front c rest he hc ht hr =>
    have hfront : ∀ d ∈ front, isSpace d = true := by
      intro d hd
      rw [← ht []] at hd
      exact List.mem_takeWhile_imp hd
    exact .stops front c rest he hc hfront ht hr
  | through hall ht hr =>
    cases hp with
    | space =>
      refine .space hall (ht back) (hr back) ?_ ((hr _).trans ?_)
      · rw [leadingSpace, ht]
        simp [(by decide : isSpace ' ' = true)]
      · exact List.dropWhile_cons_of_pos (by decide)
    | @comment body hbody hline =>
      refine .comment ('*' :: body ++ back) hall (ht back) (hr back) ?_ ((hr _).trans ?_)
      · rw [leadingSpace, ht]
        simp [(by decide : isSpace '/' = false)]
      · exact List.dropWhile_cons_of_neg (by decide)

end ScriptTree
