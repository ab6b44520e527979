import ScriptTree.Json.Basic

/-!
Reading JSON text, strictly by the grammar of the format.

A number keeps its spelling. A string is Unicode text unless an escape leaves half of a surrogate
pair alone: the grammar allows that, so it is read, but it has no text.
-/

namespace ScriptTree

/-- A value as it stands in a JSON text. -/
abbrev JsonDocument : Type := Json String (Option String)

namespace JsonDocument

/-- The white space of the format. -/
def isBlank (c : Char) : Bool := c == ' ' || c == '\t' || c == '\n' || c == '\r'

/-- The text behind the white space at its start. -/
def skipBlank (text : List Char) : List Char := text.dropWhile isBlank

/-- One item of a string: a character, or a 16-bit unit written as an escape. -/
inductive StringItem where
  /-- A character. -/
  | character (c : Char)
  /-- A UTF-16 unit. -/
  | unit (value : Nat)

/-- The value of a hexadecimal digit. -/
def hexValue? (c : Char) : Option Nat :=
  if c.isDigit then some (c.toNat - '0'.toNat)
  else if 'a' ≤ c ∧ c ≤ 'f' then some (c.toNat - 'a'.toNat + 10)
  else if 'A' ≤ c ∧ c ≤ 'F' then some (c.toNat - 'A'.toNat + 10)
  else none

/-- The character that a letter behind a backslash stands for. -/
def escape? (c : Char) : Option Char :=
  if c = '\x22' ∨ c = '\\' ∨ c = '/' then some c
  else if c = 'b' then some '\x08'
  else if c = 'f' then some '\x0c'
  else if c = 'n' then some '\n'
  else if c = 'r' then some '\r'
  else if c = 't' then some '\t'
  else none

/-- The items of a string, up to its closing quote, and the text behind that. -/
def stringItems : List Char → Option (List StringItem × List Char)
  | [] => none
  | '\\' :: 'u' :: a :: b :: c :: d :: rest => do
    let a ← hexValue? a
    let b ← hexValue? b
    let c ← hexValue? c
    let d ← hexValue? d
    let (items, rest) ← stringItems rest
    some (.unit (((a * 16 + b) * 16 + c) * 16 + d) :: items, rest)
  | '\\' :: c :: rest => do
    let c ← escape? c
    let (items, rest) ← stringItems rest
    some (.character c :: items, rest)
  | c :: rest =>
    if c = '\x22' then some ([], rest)
    else if c = '\\' ∨ c.toNat < 0x20 then none
    else do
      let (items, rest) ← stringItems rest
      some (.character c :: items, rest)

/-- Whether a unit is the first half of a surrogate pair. -/
def isLeadUnit (unit : Nat) : Bool := decide (0xD800 ≤ unit) && decide (unit ≤ 0xDBFF)

/-- Whether a unit is the second half of a surrogate pair. -/
def isTrailUnit (unit : Nat) : Bool := decide (0xDC00 ≤ unit) && decide (unit ≤ 0xDFFF)

/-- The characters of a string; none if half of a surrogate pair stands alone. -/
def characters? : List StringItem → Option (List Char)
  | [] => some []
  | .character c :: items => (characters? items).map (c :: ·)
  | .unit lead :: .unit trail :: items =>
    if isLeadUnit lead && isTrailUnit trail then
      (characters? items).map
        (Char.ofNat (0x10000 + (lead - 0xD800) * 0x400 + (trail - 0xDC00)) :: ·)
    else if isLeadUnit lead || isTrailUnit lead then none
    else (characters? (.unit trail :: items)).map (Char.ofNat lead :: ·)
  | .unit value :: items =>
    if isLeadUnit value || isTrailUnit value then none
    else (characters? items).map (Char.ofNat value :: ·)

/-- A string from behind its opening quote on. -/
def string? (text : List Char) : Option (Option String × List Char) := do
  let (items, rest) ← stringItems text
  some ((characters? items).map String.ofList, rest)

/-- A non-empty row of digits. -/
def digits? (text : List Char) : Option (List Char × List Char) :=
  let digits := text.takeWhile Char.isDigit
  if digits.isEmpty then none else some (digits, text.dropWhile Char.isDigit)

/-- The whole part of a number: one digit, or several of which the first is not zero. -/
def whole? : List Char → Option (List Char × List Char)
  | '0' :: rest => some (['0'], rest)
  | text => digits? text

/-- The fraction of a number, if it has one. -/
def fraction? : List Char → Option (List Char × List Char)
  | '.' :: rest => (digits? rest).map fun (digits, rest) => ('.' :: digits, rest)
  | text => some ([], text)

/-- The sign of an exponent, if it has one. -/
def exponentSign : List Char → List Char × List Char
  | '+' :: rest => (['+'], rest)
  | '-' :: rest => (['-'], rest)
  | text => ([], text)

/-- The exponent of a number, if it has one. -/
def exponent? : List Char → Option (List Char × List Char)
  | c :: rest =>
    if c = 'e' ∨ c = 'E' then
      let (sign, rest) := exponentSign rest
      (digits? rest).map fun (digits, rest) => (c :: sign ++ digits, rest)
    else some ([], c :: rest)
  | [] => some ([], [])

/-- The spelling of a number without sign. -/
def unsigned? (text : List Char) : Option (List Char × List Char) := do
  let (whole, rest) ← whole? text
  let (fraction, rest) ← fraction? rest
  let (exponent, rest) ← exponent? rest
  some (whole ++ fraction ++ exponent, rest)

/-- The spelling of a number. -/
def number? : List Char → Option (List Char × List Char)
  | '-' :: rest => (unsigned? rest).map fun (spelling, rest) => ('-' :: spelling, rest)
  | text => unsigned? text

mutual

/-- A value that starts at the text, and the text behind it. Each call spends one of `fuel`. -/
def value? (fuel : Nat) (text : List Char) : Option (JsonDocument × List Char) :=
  match fuel, text with
  | 0, _ => none
  | _, 'n' :: 'u' :: 'l' :: 'l' :: rest => some (.null, rest)
  | _, 't' :: 'r' :: 'u' :: 'e' :: rest => some (.bool true, rest)
  | _, 'f' :: 'a' :: 'l' :: 's' :: 'e' :: rest => some (.bool false, rest)
  | _, '\x22' :: rest => (string? rest).map fun (value, rest) => (.string value, rest)
  | fuel + 1, '[' :: rest =>
    match skipBlank rest with
    | ']' :: rest => some (.array [], rest)
    | rest => (items? fuel rest).map fun (items, rest) => (.array items, rest)
  | fuel + 1, '\x7b' :: rest =>
    match skipBlank rest with
    | '\x7d' :: rest => some (.object [], rest)
    | rest => (members? fuel rest).map fun (members, rest) => (.object members, rest)
  | _, text => (number? text).map fun (spelling, rest) => (.number (String.ofList spelling), rest)

/-- The items of an array, up to its closing bracket. -/
def items? (fuel : Nat) (text : List Char) : Option (List JsonDocument × List Char) :=
  match fuel with
  | 0 => none
  | fuel + 1 => do
    let (item, rest) ← value? fuel text
    match skipBlank rest with
    | ',' :: rest => do
      let (items, rest) ← items? fuel (skipBlank rest)
      some (item :: items, rest)
    | ']' :: rest => some ([item], rest)
    | _ => none

/-- The members of an object, up to its closing brace. -/
def members? (fuel : Nat) (text : List Char) :
    Option (List (Option String × JsonDocument) × List Char) :=
  match fuel, text with
  | fuel + 1, '\x22' :: rest => do
    let (name, rest) ← string? rest
    match skipBlank rest with
    | ':' :: rest => do
      let (item, rest) ← value? fuel (skipBlank rest)
      match skipBlank rest with
      | ',' :: rest => do
        let (members, rest) ← members? fuel (skipBlank rest)
        some ((name, item) :: members, rest)
      | '\x7d' :: rest => some ([(name, item)], rest)
      | _ => none
    | _ => none
  | _, _ => none

end

/-- The value that a JSON text holds. Every second call consumes a character, so the fuel is
enough. -/
def ofText? (text : String) : Option JsonDocument :=
  let text := text.toList
  match value? (2 * text.length + 2) (skipBlank text) with
  | some (value, rest) => if (skipBlank rest).isEmpty then some value else none
  | none => none

/-- A truth value. -/
def bool? : JsonDocument → Option Bool
  | .bool value => some value
  | _ => none

/-- A string that is Unicode text. -/
def text? : JsonDocument → Option String
  | .string value => value
  | _ => none

/-- A natural number of at most 64 bits, written in plain digits. -/
def natural? : JsonDocument → Option Nat
  | .number spelling =>
    let digits := spelling.toList
    let value := digits.foldl (fun value digit => value * 10 + (digit.toNat - '0'.toNat)) 0
    if digits.all Char.isDigit && decide (value < 0x10000000000000000) then some value else none
  | _ => none

/-- Whether a value can be read as a record of `count` fields: an object whose names are text, or an
array of no more items than fields. Names that are not fields are passed over. -/
def isRecord (document : JsonDocument) (count : Nat) : Bool :=
  match document with
  | .object members => members.all fun member => member.1.isSome
  | .array items => decide (items.length ≤ count)
  | _ => false

/-- A field of a record, by name in an object and by place in an array. A field that is missing has
its default; one that is given twice is an error. -/
def field? {α : Type} (document : JsonDocument) (name : String) (place : Nat)
    (read : JsonDocument → Option α) (default : α) : Option α :=
  match document with
  | .object members =>
    match members.filter fun member => member.1 == some name with
    | [] => some default
    | [member] => read member.2
    | _ => none
  | .array items =>
    match items[place]? with
    | some item => read item
    | none => some default
  | _ => none

end JsonDocument

end ScriptTree
