import ScriptTree.Json.Reader

/-!
Options of the printer, and their JSON form.
-/

namespace ScriptTree

/-- The quote that is put around a string if nothing speaks against it. -/
inductive Quote where
  /-- The apostrophe. -/
  | single
  /-- The quotation mark. -/
  | double
  deriving DecidableEq, Repr

namespace Quote

/-- The character of a quote. -/
def char : Quote → Char
  | single => '\x27'
  | double => '\x22'

/-- The other quote. -/
def other : Quote → Quote
  | single => double
  | double => single

/-- The name of a quote. -/
def name : Quote → String
  | single => "single"
  | double => "double"

/-- The quote with a given name. -/
def ofName? (name : String) : Option Quote := [single, double].find? fun quote => quote.name == name

/-- A quote in a JSON value: its name, or an object with its name as the only key and no value. -/
def ofDocument? : JsonDocument → Option Quote
  | .string (some name) => ofName? name
  | .object [(some name, .null)] => ofName? name
  | _ => none

end Quote

/-- How a tree is printed. -/
structure PrinterOptions where
  /-- What one level of indentation is written as. -/
  indent : String := "    "
  /-- What separates lines. -/
  newLine : String := "\n"
  /-- Whether a program ends with a new line. -/
  trailingNewline : Bool := true
  /-- The preferred quote. -/
  quote : Quote := .double
  deriving DecidableEq, Repr

namespace PrinterOptions

/-- The options in a JSON value. -/
def ofDocument? (document : JsonDocument) : Option PrinterOptions :=
  if document.isRecord 4 then do
    let defaults : PrinterOptions := {}
    let indent ← document.field? "indent" 0 JsonDocument.text? defaults.indent
    let newLine ← document.field? "newLine" 1 JsonDocument.text? defaults.newLine
    let trailingNewline ←
      document.field? "trailingNewline" 2 JsonDocument.bool? defaults.trailingNewline
    let quote ← document.field? "quote" 3 Quote.ofDocument? defaults.quote
    some { indent, newLine, trailingNewline, quote }
  else none

/-- The options in a JSON text. -/
def ofJson? (text : String) : Option PrinterOptions := do
  ofDocument? (← JsonDocument.ofText? text)

end PrinterOptions

end ScriptTree
