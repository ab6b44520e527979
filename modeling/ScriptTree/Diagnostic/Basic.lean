import ScriptTree.Diagnostic.Message
import ScriptTree.Text.Location

/-!
Reports about a text that do not stop its reading, and the list in which they are collected.
-/

namespace ScriptTree

/-- A message about a text, with the arguments put in. -/
structure Diagnostic where
  /-- The stretch of text it points at, if any. -/
  span : Option Span
  /-- Its wording. -/
  text : String
  /-- The number of its message. -/
  code : Nat
  /-- Its weight. -/
  category : Category
  deriving DecidableEq, Repr

namespace Diagnostic

/-- The diagnostic of a message. -/
def ofMessage (message : Message) (arguments : List String) (span : Option Span) : Diagnostic :=
  ⟨span, message.text arguments, message.code, message.category⟩

/-- The line shown for a diagnostic, with its offset in front if it points at one. -/
def display (diagnostic : Diagnostic) : String :=
  let place := match diagnostic.span with
    | some span => "(" ++ toString span.start ++ "): "
    | none => ""
  place ++ diagnostic.category.name ++ " ES" ++ toString diagnostic.code ++ ": " ++ diagnostic.text

end Diagnostic

/-- Diagnostics in the order in which they were added. -/
structure DiagnosticList where
  /-- The diagnostics, oldest first. -/
  items : List Diagnostic
  deriving DecidableEq, Repr

namespace DiagnosticList

/-- No diagnostics. -/
def empty : DiagnosticList := ⟨[]⟩

/-- Adds a diagnostic behind the others. -/
def add (list : DiagnosticList) (diagnostic : Diagnostic) : DiagnosticList :=
  ⟨list.items ++ [diagnostic]⟩

/-- Whether there are none. -/
def isEmpty (list : DiagnosticList) : Bool := list.items.isEmpty

/-- How many there are. -/
def size (list : DiagnosticList) : Nat := list.items.length

end DiagnosticList

end ScriptTree
