import Mathlib.Algebra.Group.Nat.Defs
import Mathlib.Data.List.GetD
import Mathlib.Data.List.TakeDrop
import ScriptTree.Proofs.Locations
import ScriptTree.Proofs.Utf8Bytes

/-!
The line of an offset by a search in the table.

The table of line starts is made from the line feeds among the bytes of the text and is searched by
halving. An offset that starts a line is found, and any other has its place right behind the start of
its line, which is never before the first entry. So the search comes to the counting of line feeds, and
places further on in the text have later locations.
-/

namespace ScriptTree

/-- One location comes before another: on an earlier line, or further left. -/
def Location.Before (location other : Location) : Prop :=
  location.line < other.line ∨ (location.line = other.line ∧ location.column < other.column)

theorem Location.Before.ne {location other : Location} (h : location.Before other) :
    location ≠ other := by
  rintro rfl
  rcases h with h | ⟨-, h⟩ <;> exact Nat.lt_irrefl _ h

namespace LineTable

/-- The result of a search in a sorted list of numbers. -/
inductive Search where
  /-- There is an entry. -/
  | found (index : Nat)
  /-- There is none, and this is where it would go. -/
  | gap (index : Nat)

/-- Search by halving for an entry from `low` on and before `high`. -/
def search (starts : List Nat) (offset low high : Nat) : Search :=
  if low < high then
    let middle := low + (high - low) / 2
    if starts.getD middle 0 = offset then .found middle
    else if starts.getD middle 0 < offset then search starts offset (middle + 1) high
    else search starts offset low middle
  else .gap low
termination_by high - low

/-- The line that holds an offset, by a search; none if there would have to be a line before the
first. -/
def lineOf? (table : LineTable) (offset : Nat) : Option Nat :=
  match search table.lineStarts offset 0 table.lineStarts.length with
  | .found line => some line
  | .gap 0 => none
  | .gap (line + 1) => some line

/-- The offsets behind the line feeds among some bytes. -/
def startsInBytes (bytes : List UInt8) : List Nat :=
  (bytes.zipIdx.filter fun entry => entry.1 == '\n'.toUInt8).map fun entry => entry.2 + 1

/-- The lines and columns of a text are those that counting gives, and 32 bits hold all of them. -/
structure CountsLines (text : List Char) : Prop where
  /-- The table has the first line and one more behind each line feed. -/
  starts : (ofText text).lineStarts = 0 :: startsInBytes (utf8 text)
  /-- It is in increasing order. -/
  increasing : (ofText text).lineStarts.Pairwise (· < ·)
  /-- The search has a result everywhere, the one by counting. -/
  search : ∀ offset, (ofText text).lineOf? offset = some ((ofText text).lineIndex offset)
  /-- Between two characters, the line counts line feeds and the column counts characters. -/
  boundary : ∀ offset front rest, text = front ++ rest →
    min offset (byteLength text) = byteLength front →
    (ofText text).locate offset =
      ⟨1 + ((utf8 text).take (byteLength front)).count '\n'.toUInt8, 1 + (lastLine front).length⟩
  /-- Further on are later locations. -/
  before : ∀ front back, front <+: text → back <+: text → byteLength front < byteLength back →
    ((ofText text).locate (byteLength front)).Before ((ofText text).locate (byteLength back))
  /-- Different places between characters have different locations. -/
  injective : ∀ front back, front <+: text → back <+: text →
    (ofText text).locate (byteLength front) = (ofText text).locate (byteLength back) →
    byteLength front = byteLength back
  /-- The table has numbers of 32 bits. -/
  narrow : ∀ start ∈ (ofText text).lineStarts, start < 2 ^ 32
  /-- Lines and columns are numbers of 32 bits. -/
  narrowLocations : ∀ offset, ((ofText text).locate offset).line < 2 ^ 32 ∧
    ((ofText text).locate offset).column < 2 ^ 32

section Search

variable {starts : List Nat} {offset : Nat}

theorem getD_lt_getD (hs : starts.Pairwise (· < ·)) {i j : Nat} (hij : i < j)
    (hj : j < starts.length) : starts.getD i 0 < starts.getD j 0 := by
  rw [List.getD_eq_getElem _ _ (hij.trans hj), List.getD_eq_getElem _ _ hj]
  exact List.pairwise_iff_getElem.mp hs i j (hij.trans hj) hj hij

theorem getD_le_getD (hs : starts.Pairwise (· < ·)) {i j : Nat} (hij : i ≤ j)
    (hj : j < starts.length) : starts.getD i 0 ≤ starts.getD j 0 := by
  rcases hij.lt_or_eq with hlt | rfl
  · exact (getD_lt_getD hs hlt hj).le
  · exact Nat.le_refl _

/-- What a result of a search says about the list. -/
def Search.Fits (starts : List Nat) (offset : Nat) : Search → Prop
  | .found index => index < starts.length ∧ starts.getD index 0 = offset
  | .gap index => index ≤ starts.length ∧ (∀ i < index, starts.getD i 0 < offset) ∧
    ∀ i, index ≤ i → i < starts.length → offset < starts.getD i 0

/-- All that is left of the window has been looked at: what is before it is smaller, and what is behind
it is larger. -/
theorem search_fits (hs : starts.Pairwise (· < ·)) (low high : Nat) (hw : low ≤ high)
    (hh : high ≤ starts.length) (hbefore : ∀ i < low, starts.getD i 0 < offset)
    (hbehind : ∀ i, high ≤ i → i < starts.length → offset < starts.getD i 0) :
    (search starts offset low high).Fits starts offset := by
  fun_induction search starts offset low high with
  | case1 low high hlt middle he => exact ⟨by omega, he⟩
  | case2 low high hlt middle hne hsmall ih =>
    -- the middle is smaller, and so is all before it
    refine ih (by omega) hh (fun i hi => ?_) hbehind
    exact (getD_le_getD hs (Nat.le_of_lt_succ hi) (by omega)).trans_lt hsmall
  | case3 low high hlt middle hne hsmall ih =>
    -- the middle is larger, and so is all behind it
    refine ih (by omega) (by omega) hbefore fun i hi hlength => ?_
    have hlarge : offset < starts.getD middle 0 := by omega
    exact hlarge.trans_le (getD_le_getD hs hi hlength)
  | case4 low high hge =>
    obtain rfl : low = high := by omega
    exact ⟨hh, hbefore, hbehind⟩

/-- As many entries are at most `offset` as there are before the place where the larger ones start. -/
theorem countP_le_eq {index : Nat} (hi : index ≤ starts.length)
    (hbefore : ∀ i < index, starts.getD i 0 ≤ offset)
    (hbehind : ∀ i, index ≤ i → i < starts.length → offset < starts.getD i 0) :
    starts.countP (fun start => decide (start ≤ offset)) = index := by
  have htake : (starts.take index).countP (fun start => decide (start ≤ offset)) = index := by
    rw [List.countP_eq_length.mpr, List.length_take, Nat.min_eq_left hi]
    intro start hin
    obtain ⟨i, hlt, rfl⟩ := List.mem_take_iff_getElem.mp hin
    have hle := hbefore i (by omega)
    rw [List.getD_eq_getElem _ _ (by omega)] at hle
    exact decide_eq_true hle
  have hdrop : (starts.drop index).countP (fun start => decide (start ≤ offset)) = 0 := by
    rw [List.countP_eq_zero]
    intro start hin
    obtain ⟨i, hlt, rfl⟩ := List.mem_drop_iff_getElem.mp hin
    have hlarge := hbehind (index + i) (by omega) (by omega)
    rw [List.getD_eq_getElem _ _ (by omega)] at hlarge
    rw [decide_eq_true_eq]
    omega
  rw [← List.take_append_drop index starts, List.countP_append, htake, hdrop, Nat.add_zero]

/-- The search in a table whose first line starts at 0 comes to the counting. -/
theorem lineOf?_eq {table : LineTable} (hs : table.lineStarts.Pairwise (· < ·))
    (hzero : table.lineStarts.head? = some 0) (offset : Nat) :
    table.lineOf? offset = some (table.lineIndex offset) := by
  have hfits : (search table.lineStarts offset 0 table.lineStarts.length).Fits table.lineStarts
      offset :=
    search_fits hs 0 table.lineStarts.length (Nat.zero_le _) (Nat.le_refl _)
      (fun i hi => absurd hi (Nat.not_lt_zero i))
      fun i hi hlt => absurd hlt (Nat.not_lt.mpr hi)
  rw [lineOf?, lineIndex]
  cases hr : search table.lineStarts offset 0 table.lineStarts.length with
  | found line =>
    rw [hr] at hfits
    obtain ⟨hlt, rfl⟩ := hfits
    have hcount := countP_le_eq (Nat.succ_le_of_lt hlt)
      (fun i hi => getD_le_getD hs (Nat.le_of_lt_succ hi) hlt)
      (fun i hi hlength => getD_lt_getD hs hi hlength)
    rw [hcount]
    rfl
  | gap index =>
    rw [hr] at hfits
    cases index with
    | zero =>
      -- the first line starts at 0, so there is no gap before it
      obtain ⟨starts, hstarts⟩ := List.head?_eq_some_iff.mp hzero
      have hlarge := hfits.2.2 0 (Nat.le_refl 0) (by rw [hstarts]; exact Nat.succ_pos _)
      rw [hstarts] at hlarge
      exact absurd hlarge (Nat.not_lt_zero offset)
    | succ line =>
      have hcount := countP_le_eq hfits.1 (fun i hi => (hfits.2.1 i hi).le) hfits.2.2
      rw [hcount]
      rfl

end Search

section Table

theorem pairwise_startsAfter (offset : Nat) (text : List Char) :
    (startsAfter offset text).Pairwise (· < ·) := by
  induction text generalizing offset with
  | nil => exact .nil
  | cons c text ih =>
    rw [startsAfter_cons]
    split
    · exact List.pairwise_cons.mpr ⟨fun _ hin => lt_of_mem_startsAfter hin, ih _⟩
    · exact ih _

theorem pairwise_lineStarts (text : List Char) : (ofText text).lineStarts.Pairwise (· < ·) :=
  List.pairwise_cons.mpr ⟨fun _ hin => lt_of_mem_startsAfter hin, pairwise_startsAfter 0 text⟩

/-- No line starts behind the end of the text. -/
theorem le_of_mem_startsAfter {offset start : Nat} {text : List Char}
    (h : start ∈ startsAfter offset text) : start ≤ offset + byteLength text := by
  induction text generalizing offset with
  | nil => cases h
  | cons c text ih =>
    rw [byteLength_cons]
    have hlater (hin : start ∈ startsAfter (offset + c.utf8Size) text) :
        start ≤ offset + (c.utf8Size + byteLength text) := by
      have hle := ih hin
      omega
    rw [startsAfter_cons] at h
    split at h
    · rcases List.mem_cons.mp h with rfl | hin
      · omega
      · exact hlater hin
    · exact hlater h

/-- Line feeds are bytes of their own, so the starts of lines can be told from the bytes. -/
theorem startsAfter_eq_bytes (offset : Nat) (text : List Char) : startsAfter offset text =
    (((utf8 text).zipIdx offset).filter fun entry => entry.1 == '\n'.toUInt8).map
      fun entry => entry.2 + 1 := by
  induction text generalizing offset with
  | nil => rfl
  | cons c text ih =>
    rcases utf8EncodeChar_cases c with ⟨ha, -⟩ | ⟨hw, hwide⟩
    · rw [startsAfter_cons, ih, utf8_cons_of_ascii ha, List.zipIdx_cons, List.filter_cons,
        toUInt8_beq ha (by decide), utf8Size_of_ascii ha]
      by_cases hc : c = '\n'
      · rw [if_pos hc, if_pos (beq_iff_eq.mpr hc), List.map_cons]
      · rw [if_neg hc, if_neg (by rwa [beq_iff_eq])]
    · have hc : c ≠ '\n' := by
        rintro rfl
        exact absurd hw (by decide)
      have hnone : (((String.utf8EncodeChar c).zipIdx offset).filter
          fun entry => entry.1 == '\n'.toUInt8) = [] := by
        rw [List.filter_eq_nil_iff]
        intro entry hin
        have hb := hwide entry.1 (List.fst_mem_of_mem_zipIdx hin)
        rw [beq_toUInt8_of_wide hb (by decide)]
        exact Bool.false_ne_true
      rw [startsAfter_cons, if_neg hc, ih, utf8_cons, List.zipIdx_append, List.filter_append, hnone,
        List.nil_append, String.length_utf8EncodeChar]

theorem count_utf8 (text : List Char) : (utf8 text).count '\n'.toUInt8 = text.count '\n' := by
  induction text with
  | nil => rfl
  | cons c text ih =>
    rcases utf8EncodeChar_cases c with ⟨ha, -⟩ | ⟨hw, hwide⟩
    · rw [utf8_cons_of_ascii ha, List.count_cons, List.count_cons, ih,
        toUInt8_beq ha (by decide)]
    · have hc : c ≠ '\n' := by
        rintro rfl
        exact absurd hw (by decide)
      have hnone : '\n'.toUInt8 ∉ String.utf8EncodeChar c := fun hin =>
        absurd (hwide _ hin) (by decide)
      rw [utf8_cons, List.count_append, List.count_eq_zero.mpr hnone, Nat.zero_add, ih,
        List.count_cons_of_ne hc]

theorem take_utf8_append (front rest : List Char) :
    (utf8 (front ++ rest)).take (byteLength front) = utf8 front := by
  rw [utf8_append, ← length_utf8, List.take_left]

end Table

section Order

theorem lastLine_append {front piece : List Char} (h : '\n' ∉ piece) :
    lastLine (front ++ piece) = lastLine front ++ piece := by
  rw [lastLine, lastLine, List.rtakeWhile, List.rtakeWhile, List.reverse_append,
    List.takeWhile_append_of_pos, List.reverse_append, List.reverse_reverse]
  intro c hin
  rw [bne_iff_ne]
  rintro rfl
  exact h (List.mem_reverse.mp hin)

/-- A location further on is later, whether or not a line starts in between. -/
theorem before_of_append {front piece : List Char} (h : piece ≠ []) :
    Location.Before ⟨1 + front.count '\n', 1 + (lastLine front).length⟩
      ⟨1 + (front ++ piece).count '\n', 1 + (lastLine (front ++ piece)).length⟩ := by
  rw [Location.Before, List.count_append]
  by_cases hn : '\n' ∈ piece
  · have hpos := List.count_pos_iff.mpr hn
    exact .inl (by dsimp only; omega)
  · have hzero := List.count_eq_zero.mpr hn
    have hpos := List.length_pos_iff.mpr h
    rw [lastLine_append hn, List.length_append]
    exact .inr ⟨by dsimp only; omega, by dsimp only; omega⟩

theorem locate_of_isPrefix {front text : List Char} (h : front <+: text) :
    (ofText text).locate (byteLength front) =
      ⟨1 + front.count '\n', 1 + (lastLine front).length⟩ := by
  obtain ⟨rest, rfl⟩ := h
  exact locate_append front rest

theorem byteLength_le_of_isPrefix {front text : List Char} (h : front <+: text) :
    byteLength front ≤ byteLength text := by
  obtain ⟨rest, rfl⟩ := h
  rw [byteLength_append]
  exact Nat.le_add_right _ _

variable {text front back : List Char}

theorem locate_before (hf : front <+: text) (hb : back <+: text)
    (h : byteLength front < byteLength back) :
    ((ofText text).locate (byteLength front)).Before ((ofText text).locate (byteLength back)) := by
  have hprefix : front <+: back := by
    rcases List.prefix_or_prefix_of_prefix hf hb with hp | hp
    · exact hp
    · exact absurd (byteLength_le_of_isPrefix hp) (Nat.not_le.mpr h)
  obtain ⟨piece, rfl⟩ := hprefix
  rw [locate_of_isPrefix hf, locate_of_isPrefix hb]
  refine before_of_append ?_
  rintro rfl
  rw [List.append_nil] at h
  exact Nat.lt_irrefl _ h

theorem locate_injective (hf : front <+: text) (hb : back <+: text)
    (h : (ofText text).locate (byteLength front) = (ofText text).locate (byteLength back)) :
    byteLength front = byteLength back := by
  rcases Nat.lt_trichotomy (byteLength front) (byteLength back) with hlt | he | hlt
  · exact absurd h (locate_before hf hb hlt).ne
  · exact he
  · exact absurd h.symm (locate_before hb hf hlt).ne

end Order

section Bounds

theorem length_of_takeBytes? {size : Nat} {text piece : List Char}
    (h : takeBytes? size text = some piece) : piece.length ≤ size := by
  induction text generalizing size piece with
  | nil =>
    cases size with
    | zero =>
      cases h
      exact Nat.le_refl 0
    | succ size => cases h
  | cons c text ih =>
    cases size with
    | zero =>
      cases h
      exact Nat.le_refl 0
    | succ size =>
      have hc := c.utf8Size_pos
      rw [takeBytes?] at h
      split at h
      · obtain ⟨rest, hr, rfl⟩ := Option.map_eq_some_iff.mp h
        have hle := ih hr
        rw [List.length_cons]
        omega
      · cases h

theorem distance_le (table : LineTable) (start offset : Nat) :
    table.distance start offset ≤ offset - start := by
  rw [distance]
  split
  · rename_i piece h
    obtain ⟨text, -, ht⟩ := Option.bind_eq_some_iff.mp h
    exact length_of_takeBytes? ht
  · exact Nat.le_refl _

theorem lineIndex_le (text : List Char) (offset : Nat) :
    (ofText text).lineIndex offset ≤ byteLength text := by
  have hcount := List.countP_le_length (p := fun start => decide (start ≤ offset))
    (l := (ofText text).lineStarts)
  have hlines : (startsAfter 0 text).length = text.count '\n' := by
    have hall := countP_startsAfter 0 text []
    rw [List.append_nil, Nat.zero_add, List.countP_eq_length.mpr] at hall
    · exact hall
    · intro start hin
      have hle := le_of_mem_startsAfter hin
      rw [Nat.zero_add] at hle
      exact decide_eq_true hle
  have hlength : (ofText text).lineStarts.length = text.count '\n' + 1 := by
    rw [ofText, List.length_cons, hlines]
  have hchars := List.count_le_length (a := '\n') (l := text)
  have hbytes := length_le_byteLength text
  rw [lineIndex]
  omega

theorem locate_le (text : List Char) (offset : Nat) :
    ((ofText text).locate offset).line ≤ byteLength text + 1 ∧
      ((ofText text).locate offset).column ≤ byteLength text + 1 := by
  have htext : (ofText text).text = text := rfl
  simp only [locate, htext]
  refine ⟨Nat.succ_le_succ (lineIndex_le text _),
    Nat.succ_le_succ ((distance_le _ _ _).trans ?_)⟩
  exact (Nat.sub_le _ _).trans (Nat.min_le_right _ _)

end Bounds

/-- The table, the search in it and the locations are those that counting gives. -/
theorem countsLines {text : List Char} (h : byteLength text < 2 ^ 32 - 1) : CountsLines text where
  starts := congrArg (0 :: ·) (startsAfter_eq_bytes 0 text)
  increasing := pairwise_lineStarts text
  search := lineOf?_eq (pairwise_lineStarts text) rfl
  boundary := by
    rintro offset front rest rfl hoffset
    have hclamp : (ofText (front ++ rest)).locate offset =
        (ofText (front ++ rest)).locate (byteLength front) := by
      have hmin : min (byteLength front) (byteLength (front ++ rest)) = byteLength front :=
        Nat.min_eq_left (byteLength_le_of_isPrefix (List.prefix_append front rest))
      have htext : (ofText (front ++ rest)).text = front ++ rest := rfl
      simp only [locate, htext, hoffset, hmin]
    rw [hclamp, locate_append, take_utf8_append, count_utf8]
  before := fun _ _ => locate_before
  injective := fun _ _ => locate_injective
  narrow := by
    intro start hin
    rcases List.mem_cons.mp hin with rfl | hin
    · decide
    · have hle := le_of_mem_startsAfter hin
      omega
  narrowLocations := by
    intro offset
    obtain ⟨hline, hcolumn⟩ := locate_le text offset
    exact ⟨by omega, by omega⟩

/-- Two line feeds in a row behind a character of two bytes. -/
theorem countsLines_empty_line : byteLength ['é', '\n', '\n', 'b'] < 2 ^ 32 - 1 ∧
    CountsLines ['é', '\n', '\n', 'b'] :=
  ⟨by decide, countsLines (by decide)⟩

end LineTable

end ScriptTree
