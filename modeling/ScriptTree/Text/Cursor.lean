/-!
Positions in a text. A text is read as a list of characters, while every offset and length that a
caller sees counts the bytes of its UTF-8 form.
-/

namespace ScriptTree

/-- The number of bytes of a text in UTF-8. -/
def byteLength : List Char → Nat
  | [] => 0
  | c :: text => c.utf8Size + byteLength text

/-- The part of a text from a byte offset on; none if the offset lies beyond the end or inside a
character. -/
def dropBytes? : Nat → List Char → Option (List Char)
  | 0, text => some text
  | _ + 1, [] => none
  | n + 1, c :: text => if c.utf8Size ≤ n + 1 then dropBytes? (n + 1 - c.utf8Size) text else none

/-- The part of a text before a byte offset; none if the offset lies beyond the end or inside a
character. -/
def takeBytes? : Nat → List Char → Option (List Char)
  | 0, _ => some []
  | _ + 1, [] => none
  | n + 1, c :: text =>
    if c.utf8Size ≤ n + 1 then (takeBytes? (n + 1 - c.utf8Size) text).map (c :: ·) else none

/-- A place in a text: how many bytes lie before it and what lies after it. -/
structure Cursor where
  /-- Bytes before the cursor. -/
  offset : Nat
  /-- Text after the cursor. -/
  rest : List Char
  deriving DecidableEq, Repr, Inhabited

namespace Cursor

/-- The cursor in front of a text. -/
def ofText (text : List Char) : Cursor := ⟨0, text⟩

/-- The cursor behind a piece of text that starts at it. -/
def advance (cursor : Cursor) (piece : List Char) : Cursor :=
  ⟨cursor.offset + byteLength piece, cursor.rest.drop piece.length⟩

/-- The cursor behind the blank characters that follow it. -/
def skipBlank (cursor : Cursor) (isBlank : Char → Bool) : Cursor :=
  cursor.advance (cursor.rest.takeWhile isBlank)

end Cursor

end ScriptTree
