import ScriptTree.Proofs.Coverage

/-!
Slices of a text by byte offsets. A slice exists if both of its offsets stand between characters of
the text, and then it is the piece of text between them.
-/

namespace ScriptTree

@[simp] theorem byteLength_cons (c : Char) (text : List Char) :
    byteLength (c :: text) = c.utf8Size + byteLength text := rfl

theorem byteLength_pos {text : List Char} (h : text ≠ []) : 0 < byteLength text := by
  cases text with
  | nil => exact absurd rfl h
  | cons c text =>
    have hc := c.utf8Size_pos
    rw [byteLength_cons]
    omega

theorem length_le_byteLength (text : List Char) : text.length ≤ byteLength text := by
  induction text with
  | nil => exact Nat.le_refl 0
  | cons c text ih =>
    have hc := c.utf8Size_pos
    rw [List.length_cons, byteLength_cons]
    omega

/-- An offset behind the first character counts from behind that character. -/
theorem dropBytes?_cons (c : Char) (offset : Nat) (text : List Char) :
    dropBytes? (c.utf8Size + offset) (c :: text) = dropBytes? offset text := by
  have hc := c.utf8Size_pos
  obtain ⟨n, hn⟩ : ∃ n, c.utf8Size + offset = n + 1 := ⟨c.utf8Size + offset - 1, by omega⟩
  have hrest : n + 1 - c.utf8Size = offset := by omega
  rw [hn, dropBytes?, if_pos (by omega), hrest]

theorem takeBytes?_cons (c : Char) (offset : Nat) (text : List Char) :
    takeBytes? (c.utf8Size + offset) (c :: text) = (takeBytes? offset text).map (c :: ·) := by
  have hc := c.utf8Size_pos
  obtain ⟨n, hn⟩ : ∃ n, c.utf8Size + offset = n + 1 := ⟨c.utf8Size + offset - 1, by omega⟩
  have hrest : n + 1 - c.utf8Size = offset := by omega
  rw [hn, takeBytes?, if_pos (by omega), hrest]

@[simp] theorem dropBytes?_zero (text : List Char) : dropBytes? 0 text = some text := by
  cases text <;> rfl

@[simp] theorem takeBytes?_zero (text : List Char) : takeBytes? 0 text = some [] := by
  cases text <;> rfl

/-- The text behind as many bytes as a piece at its start has. -/
theorem dropBytes?_append (front rest : List Char) :
    dropBytes? (byteLength front) (front ++ rest) = some rest := by
  induction front with
  | nil => exact dropBytes?_zero rest
  | cons c front ih => rw [byteLength_cons, List.cons_append, dropBytes?_cons, ih]

theorem takeBytes?_append (front rest : List Char) :
    takeBytes? (byteLength front) (front ++ rest) = some front := by
  induction front with
  | nil => exact takeBytes?_zero rest
  | cons c front ih => rw [byteLength_cons, List.cons_append, takeBytes?_cons, ih, Option.map_some]

/-- The part of a text between two byte offsets; none if they are out of order, or if one of them lies
beyond the end or inside a character. -/
def sliceBytes? (start stop : Nat) (text : List Char) : Option (List Char) :=
  if start ≤ stop then (dropBytes? start text).bind (takeBytes? (stop - start)) else none

theorem sliceBytes?_append (front piece rest : List Char) :
    sliceBytes? (byteLength front) (byteLength front + byteLength piece) (front ++ (piece ++ rest)) =
      some piece := by
  rw [sliceBytes?, if_pos (Nat.le_add_right _ _), dropBytes?_append, Nat.add_sub_cancel_left]
  exact takeBytes?_append piece rest

end ScriptTree
