/-!
JSON values, over the types that hold their numbers and their strings.
-/

namespace ScriptTree

/-- A JSON value. Members keep their order, and one name may occur twice. -/
inductive Json (number text : Type) where
  /-- The value `null`. -/
  | null
  /-- A truth value. -/
  | bool (value : Bool)
  /-- A number. -/
  | number (value : number)
  /-- A string. -/
  | string (value : text)
  /-- A list of values. -/
  | array (items : List (Json number text))
  /-- Named values. -/
  | object (members : List (text × Json number text))
  deriving Inhabited

end ScriptTree
