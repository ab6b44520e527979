import ScriptTree.Text.Cursor

/-!
Spans of a text and the map from byte offsets to lines and columns.
-/

namespace ScriptTree

/-- A stretch of text, by its first byte and its length in bytes. -/
structure Span where
  /-- Offset of the first byte. -/
  start : Nat
  /-- Number of bytes. -/
  length : Nat
  deriving DecidableEq, Repr

namespace Span

/-- The offset just behind the span. -/
def stop (span : Span) : Nat := span.start + span.length

/-- The half-open interval, `[5, 15)`. -/
def interval (span : Span) : String :=
  "[" ++ toString span.start ++ ", " ++ toString span.stop ++ ")"

/-- The two bounds, `5..15`. -/
def bounds (span : Span) : String := toString span.start ++ ".." ++ toString span.stop

end Span

/-- A line and a column as shown to users: both count from 1, columns in characters. -/
structure Location where
  /-- Line number. -/
  line : Nat
  /-- Column number. -/
  column : Nat
  deriving DecidableEq, Repr, Inhabited

/-- The form `line:column`. -/
def Location.text (location : Location) : String :=
  toString location.line ++ ":" ++ toString location.column

/-- A text with the offsets at which its lines start, in increasing order. -/
structure LineTable where
  /-- The text itself. -/
  text : List Char
  /-- Offset of the first byte of each line. -/
  lineStarts : List Nat
  deriving Repr

namespace LineTable

/-- The offsets behind the line feeds of a text that starts at `offset`. -/
def startsAfter (offset : Nat) : List Char → List Nat
  | [] => []
  | c :: text =>
    let next := offset + c.utf8Size
    if c = '\n' then next :: startsAfter next text else startsAfter next text

/-- The line table of a text. The first line starts at 0. -/
def ofText (text : List Char) : LineTable := ⟨text, 0 :: startsAfter 0 text⟩

/-- The line that holds an offset, counted from 0: the last one that starts at or before it. -/
def lineIndex (table : LineTable) (offset : Nat) : Nat :=
  table.lineStarts.countP (fun start => decide (start ≤ offset)) - 1

/-- The number of characters from `start` to `offset`, or of bytes if `offset` lies inside a
character. -/
def distance (table : LineTable) (start offset : Nat) : Nat :=
  match (dropBytes? start table.text).bind (takeBytes? (offset - start)) with
  | some between => between.length
  | none => offset - start

/-- The location of an offset. An offset behind the text counts as its end. -/
def locate (table : LineTable) (offset : Nat) : Location :=
  let offset := min offset (byteLength table.text)
  let line := table.lineIndex offset
  ⟨line + 1, table.distance (table.lineStarts.getD line 0) offset + 1⟩

end LineTable

end ScriptTree
