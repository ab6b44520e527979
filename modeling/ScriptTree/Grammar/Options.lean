import ScriptTree.Json.Reader

/-!
Options of the parser, and their JSON form.
-/

namespace ScriptTree

/-- How a text is parsed. -/
structure ParserOptions where
  /-- How many constructs may stand inside each other. -/
  maxDepth : Nat := 200
  /-- Whether operands that no construct takes are an error. -/
  strictOperandStack : Bool := true
  deriving DecidableEq, Repr

namespace ParserOptions

/-- The options in a JSON value. -/
def ofDocument? (document : JsonDocument) : Option ParserOptions :=
  if document.isRecord 2 then do
    let defaults : ParserOptions := {}
    let maxDepth ← document.field? "maxDepth" 0 JsonDocument.natural? defaults.maxDepth
    let strictOperandStack ←
      document.field? "strictOperandStack" 1 JsonDocument.bool? defaults.strictOperandStack
    some { maxDepth, strictOperandStack }
  else none

/-- The options in a JSON text. -/
def ofJson? (text : String) : Option ParserOptions := do
  ofDocument? (← JsonDocument.ofText? text)

end ParserOptions

end ScriptTree
