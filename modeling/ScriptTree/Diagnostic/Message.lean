/-!
The messages that reading a program can give, each with its code, its weight and its wording.
-/

namespace ScriptTree

/-- How much a message weighs. -/
inductive Category where
  /-- Reading may go on. -/
  | warning
  /-- Reading has failed. -/
  | error
  deriving DecidableEq, Repr

/-- The name of a category. -/
def Category.name : Category → String
  | .warning => "warning"
  | .error => "error"

/-- Everything that can be reported about a text. -/
inductive Message where
  /-- No lexical rule matches. -/
  | invalidCharacter
  /-- A number that is too large to hold. -/
  | invalidNumericLiteral
  /-- A token that cannot stand here. -/
  | unexpectedToken
  /-- The text ended too early. -/
  | unexpectedEnd
  /-- Another token was needed. -/
  | expectedButFound
  /-- A token was needed and the text ended. -/
  | expectedAtEnd
  /-- The first clause of a loop head goes on in no known way. -/
  | inOrOfExpected
  /-- A binary operator without left operand. -/
  | missingLeftOperand
  /-- A name was needed. -/
  | identifierExpected
  /-- Parentheses with nothing in them. -/
  | emptyParentheses
  /-- Operands were left over. -/
  | unconsumedOperands
  /-- Operands were left over and dropped. -/
  | droppedOperands
  /-- The nesting limit was reached. -/
  | nestingTooDeep
  deriving DecidableEq, Repr

namespace Message

/-- The stable number of a message. -/
def code : Message → Nat
  | .invalidCharacter => 1001
  | .invalidNumericLiteral => 1002
  | .unexpectedToken => 1100
  | .unexpectedEnd => 1101
  | .expectedButFound => 1102
  | .expectedAtEnd => 1103
  | .inOrOfExpected => 1104
  | .missingLeftOperand => 1105
  | .identifierExpected => 1106
  | .emptyParentheses => 1107
  | .unconsumedOperands => 1200
  | .droppedOperands => 1201
  | .nestingTooDeep => 1202

/-- Only dropped operands are a mere warning. -/
def category : Message → Category
  | .droppedOperands => .warning
  | _ => .error

/-- The wording of a message. A number in braces stands for the argument at that place. -/
def template : Message → String
  | .invalidCharacter => "Invalid or unexpected token '\x7b0\x7d'."
  | .invalidNumericLiteral => "Invalid numeric literal '\x7b0\x7d'."
  | .unexpectedToken => "Unexpected token '\x7b0\x7d'."
  | .unexpectedEnd => "Unexpected end of input."
  | .expectedButFound => "'\x7b0\x7d' expected but found '\x7b1\x7d'."
  | .expectedAtEnd => "'\x7b0\x7d' expected but reached end of input."
  | .inOrOfExpected => "';', 'in' or 'of' expected after the first clause of a for statement."
  | .missingLeftOperand => "Operator '\x7b0\x7d' has no left operand."
  | .identifierExpected => "Identifier expected but found '\x7b0\x7d'."
  | .emptyParentheses => "Empty parentheses must be followed by '=>'."
  | .unconsumedOperands => "\x7b0\x7d operand(s) left unconsumed after statement."
  | .droppedOperands => "\x7b0\x7d operand(s) left unconsumed after statement."
  | .nestingTooDeep => "Maximum nesting depth of \x7b0\x7d exceeded."

end Message

namespace Template

/-- Replaces a pattern in a text from left to right, after passing over `skip` characters that
belong to the last match. -/
def replaceFrom (pattern replacement : List Char) : Nat → List Char → List Char
  | _, [] => []
  | skip + 1, _ :: text => replaceFrom pattern replacement skip text
  | 0, c :: text =>
    if pattern.isPrefixOf (c :: text) then
      replacement ++ replaceFrom pattern replacement (pattern.length - 1) text
    else
      c :: replaceFrom pattern replacement 0 text

/-- The placeholder of an argument: its place, in braces. -/
def placeholder (index : Nat) : List Char :=
  '\x7b' :: (toString index).toList ++ ['\x7d']

/-- Puts the arguments in, one after the other and each over the whole text, from a given place on.
Text that an argument brings in may hold the placeholder of a later one, which is then replaced
in its turn. -/
def fillFrom (index : Nat) (text : List Char) : List String → List Char
  | [] => text
  | argument :: arguments =>
    fillFrom (index + 1) (replaceFrom (placeholder index) argument.toList 0 text) arguments

/-- A template with its arguments put in. -/
def fill (template : String) (arguments : List String) : String :=
  String.ofList (fillFrom 0 template.toList arguments)

end Template

/-- The text of a message with its arguments. -/
def Message.text (message : Message) (arguments : List String) : String :=
  Template.fill message.template arguments

end ScriptTree
