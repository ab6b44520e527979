import Mathlib.Data.List.DropRight
import ScriptTree.Proofs.ByteSlices
import ScriptTree.Text.Location

/-!
Lines and columns by counting.

The line of an offset between two characters is found by the table of line starts. It is the number of
line feeds before the offset, and the column is the number of characters behind the last of them.
-/

namespace ScriptTree

/-- What stands behind the last line feed of a text. -/
def lastLine (text : List Char) : List Char := text.rtakeWhile fun c => c != '\n'

/-- Whether a text is empty or ends with a line feed. -/
def EndsLines (text : List Char) : Prop := ∀ c ∈ text.getLast?, c = '\n'

/-- A text is cut where its last line starts. -/
theorem exists_lines (text : List Char) :
    ∃ lines, text = lines ++ lastLine text ∧ EndsLines lines ∧ '\n' ∉ lastLine text := by
  refine ⟨text.rdropWhile fun c => c != '\n', List.rdropWhile_append_rtakeWhile.symm, ?_, ?_⟩
  · intro c hc
    obtain ⟨hne, rfl⟩ := List.mem_getLast?_eq_getLast hc
    simpa using List.rdropWhile_last_not _ _ hne
  · intro hn
    simpa using List.mem_rtakeWhile_imp hn

theorem EndsLines.tail {c : Char} {text : List Char} (h : EndsLines (c :: text)) :
    EndsLines text := by
  intro d hd
  apply h
  cases text with
  | nil => cases hd
  | cons => exact hd

namespace LineTable

theorem startsAfter_cons (offset : Nat) (c : Char) (text : List Char) :
    startsAfter offset (c :: text) =
      if c = '\n' then (offset + c.utf8Size) :: startsAfter (offset + c.utf8Size) text
      else startsAfter (offset + c.utf8Size) text := rfl

/-- Behind an offset no line starts before it. -/
theorem lt_of_mem_startsAfter {offset start : Nat} {text : List Char}
    (h : start ∈ startsAfter offset text) : offset < start := by
  induction text generalizing offset with
  | nil => cases h
  | cons c text ih =>
    have hc := c.utf8Size_pos
    have hlater (hin : start ∈ startsAfter (offset + c.utf8Size) text) : offset < start :=
      (Nat.lt_add_of_pos_right hc).trans (ih hin)
    rw [startsAfter_cons] at h
    split at h
    · rcases List.mem_cons.mp h with rfl | hin
      · exact Nat.lt_add_of_pos_right hc
      · exact hlater hin
    · exact hlater h

/-- As many lines start up to an offset as there are line feeds before it. -/
theorem countP_startsAfter (offset : Nat) (front rest : List Char) :
    (startsAfter offset (front ++ rest)).countP
      (fun start => decide (start ≤ offset + byteLength front)) = front.count '\n' := by
  induction front generalizing offset with
  | nil =>
    rw [List.nil_append, List.count_nil, List.countP_eq_zero]
    intro start hin
    have hlt := lt_of_mem_startsAfter hin
    rw [byteLength, Nat.add_zero, decide_eq_true_eq, Nat.not_le]
    exact hlt
  | cons c front ih =>
    have hlater := ih (offset + c.utf8Size)
    rw [Nat.add_assoc, ← byteLength_cons] at hlater
    rw [List.cons_append, startsAfter_cons]
    by_cases hc : c = '\n'
    · have hle : offset + c.utf8Size ≤ offset + byteLength (c :: front) := by
        rw [byteLength_cons]
        omega
      rw [if_pos hc, List.countP_cons_of_pos (by simp only [hle, decide_true]), hlater, hc, List.count_cons_self]
    · rw [if_neg hc, hlater, List.count_cons_of_ne hc]

/-- The start of a line comes in the table after the starts of the lines before it. -/
theorem getD_startsAfter (offset : Nat) {lines : List Char} (h : EndsLines lines) (rest : List Char) :
    (offset :: startsAfter offset (lines ++ rest)).getD (lines.count '\n') 0 =
      offset + byteLength lines := by
  induction lines generalizing offset with
  | nil => rfl
  | cons c lines ih =>
    have hlater := ih (offset + c.utf8Size) h.tail
    rw [Nat.add_assoc, ← byteLength_cons] at hlater
    rw [List.cons_append, startsAfter_cons]
    by_cases hc : c = '\n'
    · have hcount : (c :: lines).count '\n' = lines.count '\n' + 1 := by
        rw [hc, List.count_cons_self]
      rw [if_pos hc, hcount, List.getD_cons_succ]
      exact hlater
    · -- the first line goes on, and another one starts further on
      obtain ⟨count, hcount⟩ : ∃ count, lines.count '\n' = count + 1 := by
        have hne : lines ≠ [] := by
          rintro rfl
          exact hc (h c rfl)
        have hlast : lines.getLast hne = '\n' := h.tail _ (List.getLast?_eq_getLast_of_ne_nil hne)
        have hmem : '\n' ∈ lines := hlast ▸ List.getLast_mem hne
        exact Nat.exists_eq_add_one.mpr (List.count_pos_iff.mpr hmem)
      rw [hcount, List.getD_cons_succ] at hlater
      rw [if_neg hc, List.count_cons_of_ne hc, hcount, List.getD_cons_succ]
      exact hlater

/-- The location of a place between two characters. -/
theorem locate_append (front rest : List Char) :
    (ofText (front ++ rest)).locate (byteLength front) =
      ⟨1 + front.count '\n', 1 + (lastLine front).length⟩ := by
  obtain ⟨lines, hfront, hends, hlast⟩ := exists_lines front
  have hmin : min (byteLength front) (byteLength (front ++ rest)) = byteLength front := by
    rw [byteLength_append]
    omega
  have hline : (ofText (front ++ rest)).lineIndex (byteLength front) = front.count '\n' := by
    have hcount := countP_startsAfter 0 front rest
    rw [Nat.zero_add] at hcount
    rw [lineIndex, ofText, List.countP_cons_of_pos (by simp), hcount, Nat.add_sub_cancel]
  have hlines : front.count '\n' = lines.count '\n' := by
    rw [hfront, List.count_append, List.count_eq_zero.mpr hlast, Nat.add_zero]
  have hstart : (ofText (front ++ rest)).lineStarts.getD (front.count '\n') 0 = byteLength lines := by
    have hget := getD_startsAfter 0 hends (lastLine front ++ rest)
    rw [Nat.zero_add, ← List.append_assoc, ← hfront, ← hlines] at hget
    exact hget
  have hdistance : (ofText (front ++ rest)).distance (byteLength lines) (byteLength front) =
      (lastLine front).length := by
    have htext : (ofText (front ++ rest)).text = lines ++ (lastLine front ++ rest) := by
      rw [← List.append_assoc, ← hfront]
      rfl
    have hoffset : byteLength front - byteLength lines = byteLength (lastLine front) := by
      have hlength := congrArg byteLength hfront
      rw [byteLength_append] at hlength
      omega
    rw [distance, htext, dropBytes?_append, hoffset, Option.bind_some, takeBytes?_append]
  have htext : (ofText (front ++ rest)).text = front ++ rest := rfl
  simp only [locate, htext, hmin, hline, hstart, hdistance, Nat.add_comm 1]

end LineTable

end ScriptTree
