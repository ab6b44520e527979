import ScriptTree.Text.CharClass
import ScriptTree.Token.Lexeme

/-!
The lexical forms that are more than a fixed spelling. Each reads the longest match at the start of
a text; what it matches is always the text's beginning.
-/

namespace ScriptTree

/-- The text behind a spelling, if it starts with it. -/
def afterSpelling? : List Char → List Char → Option (List Char)
  | [], text => some text
  | _ :: _, [] => none
  | s :: spelling, c :: text => if s = c then afterSpelling? spelling text else none

/-- Whether no name goes on at the start of a text. -/
def atBoundary : List Char → Bool
  | [] => true
  | c :: _ => !isNamePart c

/-- The text behind a word, if it starts with the word and no longer name. -/
def afterWord? (word text : List Char) : Option (List Char) :=
  (afterSpelling? word text).filter atBoundary

/-- The white space at the start of a text. -/
def leadingSpace (text : List Char) : List Char := text.takeWhile isSpace

/-- The text behind the white space at its start. -/
def afterSpace (text : List Char) : List Char := text.dropWhile isSpace

namespace Scan

/-- The word `async`. -/
def asyncWord : List Char := ['a', 's', 'y', 'n', 'c']

/-- The word `function`. -/
def functionWord : List Char := ['f', 'u', 'n', 'c', 't', 'i', 'o', 'n']

/-- The word `yield`. -/
def yieldWord : List Char := ['y', 'i', 'e', 'l', 'd']

/-- The word `for`. -/
def forWord : List Char := ['f', 'o', 'r']

/-- The word `await`. -/
def awaitWord : List Char := ['a', 'w', 'a', 'i', 't']

/-- The word `export`. -/
def exportWord : List Char := ['e', 'x', 'p', 'o', 'r', 't']

/-- The word `default`. -/
def defaultWord : List Char := ['d', 'e', 'f', 'a', 'u', 'l', 't']

/-- The word `continue`. -/
def continueWord : List Char := ['c', 'o', 'n', 't', 'i', 'n', 'u', 'e']

/-- The word `break`. -/
def breakWord : List Char := ['b', 'r', 'e', 'a', 'k']

/-- What follows the word of a generator form: a star behind optional white space, or nothing if no
longer name goes on. -/
def starOrBoundary? (text : List Char) : Option (List Char) :=
  match afterSpace text with
  | '*' :: _ => some (leadingSpace text ++ ['*'])
  | _ => if atBoundary text then some [] else none

/-- `function`, with a star for a generator. -/
def plainFunction? (text : List Char) : Option (List Char) := do
  let rest ← afterSpelling? functionWord text
  let star ← starOrBoundary? rest
  some (functionWord ++ star)

/-- The head of a function: `async` and white space if wanted, then `function`. -/
def functionHead (text : List Char) : Option Lexeme :=
  match afterSpelling? asyncWord text with
  | some rest =>
    if (leadingSpace rest).isEmpty then none
    else (plainFunction? (afterSpace rest)).map fun head =>
      .whole (asyncWord ++ leadingSpace rest ++ head)
  | none => (plainFunction? text).map .whole

/-- `yield`, with a star for a delegation. -/
def yieldHead (text : List Char) : Option Lexeme := do
  let rest ← afterSpelling? yieldWord text
  let star ← starOrBoundary? rest
  some (.whole (yieldWord ++ star))

/-- The keyword part of a loop head and the text behind it: `for`, or `for await`. -/
def forWords? (text : List Char) : Option (List Char × List Char) := do
  let rest ← afterWord? forWord text
  if (leadingSpace rest).isEmpty then some (forWord, rest)
  else match afterWord? awaitWord (afterSpace rest) with
    | some behind => some (forWord ++ leadingSpace rest ++ awaitWord, behind)
    | none => some (forWord, rest)

/-- The head of a loop up to and with its opening parenthesis. The value is the keyword part. -/
def forHead (text : List Char) : Option Lexeme := do
  let (words, rest) ← forWords? text
  match afterSpace rest with
  | '(' :: _ => some ⟨[], words, leadingSpace rest ++ ['(']⟩
  | _ => none

/-- The first of some words that the text starts with, if white space follows it. -/
def wordBeforeSpace (words : List (List Char)) (text : List Char) : Option Lexeme :=
  words.findSome? fun word =>
    match afterWord? word text with
    | some (c :: _) => if isSpace c then some (.whole word) else none
    | _ => none

/-- An operator that is a word, before white space. -/
def relationalWord : List Char → Option Lexeme :=
  wordBeforeSpace [['i', 'n', 's', 't', 'a', 'n', 'c', 'e', 'o', 'f'], ['i', 'n'], ['o', 'f']]

/-- A word of import and export lists, before white space. -/
def importWord : List Char → Option Lexeme :=
  wordBeforeSpace [['a', 's'], ['f', 'r', 'o', 'm']]

/-- `export default`. -/
def exportDefault (text : List Char) : Option Lexeme := do
  let rest ← afterWord? exportWord text
  if (leadingSpace rest).isEmpty then none
  else do
    let _ ← afterWord? defaultWord (afterSpace rest)
    some (.whole (exportWord ++ leadingSpace rest ++ defaultWord))

/-- The longest name at the start of a text. -/
def name? : List Char → Option (List Char)
  | [] => none
  | c :: text => if isNameStart c then some (c :: text.takeWhile isNamePart) else none

/-- A name. -/
def identifier (text : List Char) : Option Lexeme := (name? text).map .whole

/-- Spaces and tabs, which may stand between a jump and its label. -/
def isGap (c : Char) : Bool := c == ' ' || c == '\t'

/-- A jump with its label on the same line. The value is the label, empty if there is none. -/
def jump (word text : List Char) : Option Lexeme := do
  let rest ← afterWord? word text
  let gap := rest.takeWhile isGap
  if gap.isEmpty then some ⟨word, [], []⟩
  else match name? (rest.dropWhile isGap) with
    | some label => some ⟨word ++ gap, label, []⟩
    | none => some ⟨word, [], []⟩

/-- A block comment from behind its opening on, up to and with its end. -/
def commentTail? : List Char → Option (List Char)
  | [] => none
  | '*' :: '/' :: _ => some ['*', '/']
  | c :: text => (commentTail? text).map (c :: ·)

/-- A comment between `/*` and `*/`. -/
def blockComment : List Char → Option Lexeme
  | '/' :: '*' :: text => (commentTail? text).map fun tail => .whole ('/' :: '*' :: tail)
  | _ => none

/-- A comment from `//` to the end of the line. -/
def lineComment : List Char → Option Lexeme
  | '/' :: '/' :: text => some (.whole ('/' :: '/' :: text.takeWhile (· != '\n')))
  | _ => none

/-- The body of a regular expression, up to its closing slash. A backslash takes the next character
with it, and a slash between brackets belongs to the body. -/
def regexBody? (inClass : Bool) : List Char → Option (List Char)
  | [] => none
  | '\\' :: c :: text => (regexBody? inClass text).map fun body => '\\' :: c :: body
  | c :: text =>
    if c == '\\' || c == '\n' || c == '\r' then none
    else if c == '[' then (regexBody? true text).map (c :: ·)
    else if c == ']' then (regexBody? false text).map (c :: ·)
    else if c == '/' && !inClass then some []
    else (regexBody? inClass text).map (c :: ·)

/-- A regular expression on one line, with its flags. -/
def regex : List Char → Option Lexeme
  | '/' :: text =>
    match regexBody? false text with
    | some [] => none
    | some body =>
      let flags := (text.drop (body.length + 1)).takeWhile isRegexFlag
      some (.whole ('/' :: body ++ '/' :: flags))
    | none => none
  | _ => none

/-- The digits of the radix that a letter behind a leading zero stands for. -/
def radixDigit? (marker : Char) : Option (Char → Bool) :=
  if marker == 'x' || marker == 'X' then some isHexDigit
  else if marker == 'o' || marker == 'O' then some isOctalDigit
  else if marker == 'b' || marker == 'B' then some isBinaryDigit
  else none

/-- An integer with a radix: a zero, a letter and at least one digit. -/
def radixInteger? : List Char → Option (List Char)
  | '0' :: marker :: text => do
    let isDigit ← radixDigit? marker
    let digits := text.takeWhile isDigit
    if digits.isEmpty then none else some ('0' :: marker :: digits)
  | _ => none

/-- The digits of a decimal with their point: `1`, `1.`, `1.5` or `.5`. -/
def mantissa? (text : List Char) : Option (List Char) :=
  let whole := text.takeWhile Char.isDigit
  match text.dropWhile Char.isDigit with
  | '.' :: rest =>
    let fraction := rest.takeWhile Char.isDigit
    if whole.isEmpty && fraction.isEmpty then none else some (whole ++ '.' :: fraction)
  | _ => if whole.isEmpty then none else some whole

/-- The exponent at the start of a text, empty if there is none. -/
def exponent : List Char → List Char
  | [] => []
  | mark :: text =>
    if mark == 'e' || mark == 'E' then
      let sign := match text with
        | '+' :: _ => ['+']
        | '-' :: _ => ['-']
        | _ => []
      let digits := (text.drop sign.length).takeWhile Char.isDigit
      if digits.isEmpty then [] else mark :: sign ++ digits
    else []

/-- A number without regard to what follows it. -/
def numeral? (text : List Char) : Option (List Char) :=
  match radixInteger? text with
  | some digits => some digits
  | none => (mantissa? text).map fun mantissa => mantissa ++ exponent (text.drop mantissa.length)

/-- A number that does not run straight into a name. -/
def number (text : List Char) : Option Lexeme :=
  match numeral? text with
  | some numeral => match text.drop numeral.length with
    | c :: _ => if isNameStart c then none else some (.whole numeral)
    | [] => some (.whole numeral)
  | none => none

/-- The contents of a string, up to its closing quote. A backslash takes the next character with it;
other line breaks are not allowed. -/
def stringBody? (quote : Char) : List Char → Option (List Char)
  | [] => none
  | '\\' :: c :: text => (stringBody? quote text).map fun body => '\\' :: c :: body
  | c :: text =>
    if c == '\\' || c == '\n' || c == '\r' then none
    else if c == quote then some []
    else (stringBody? quote text).map (c :: ·)

/-- A string in single or double quotes. The value is what stands between them. -/
def string : List Char → Option Lexeme
  | quote :: text =>
    if quote == '\x27' || quote == '\x22' then
      (stringBody? quote text).map fun body => ⟨[quote], body, [quote]⟩
    else none
  | [] => none

/-- Template text, up to a backtick or the opening of a substitution, whichever comes first. A
backslash takes the next character with it. -/
def templateBody? : List Char → Option (List Char × List Char)
  | [] => none
  | '\\' :: c :: text => (templateBody? text).map fun (body, stop) => ('\\' :: c :: body, stop)
  | '$' :: '\x7b' :: _ => some ([], ['$', '\x7b'])
  | c :: text =>
    if c == '\\' then none
    else if c == '\x60' then some ([], ['\x60'])
    else (templateBody? text).map fun (body, stop) => (c :: body, stop)

/-- Template text with what ends it. The value leaves the end out. -/
def templateChunk (text : List Char) : Option Lexeme :=
  (templateBody? text).map fun (body, stop) => ⟨[], body, stop⟩

/-- A line feed. -/
def lineFeed : List Char → Option Lexeme
  | '\n' :: _ => some (.whole ['\n'])
  | _ => none

/-- A non-empty run of characters of a class. -/
def run (isMember : Char → Bool) (text : List Char) : Option Lexeme :=
  let members := text.takeWhile isMember
  if members.isEmpty then none else some (.whole members)

end Scan

/-- The lexical forms by name. -/
inductive LexicalForm where
  /-- `function`, with `async` before it and a star behind it if wanted. -/
  | functionHead
  /-- `yield`, with a star if wanted. -/
  | yieldHead
  /-- `for` or `for await`, with the opening parenthesis. -/
  | forHead
  /-- `instanceof`, `in` or `of`, before white space. -/
  | relationalWord
  /-- `continue`, with its label. -/
  | continueJump
  /-- `break`, with its label. -/
  | breakJump
  /-- `as` or `from`, before white space. -/
  | importWord
  /-- `export default`. -/
  | exportDefault
  /-- A comment between `/*` and `*/`. -/
  | blockComment
  /-- A comment to the end of the line. -/
  | lineComment
  /-- A regular expression. -/
  | regex
  /-- A number. -/
  | number
  /-- A name. -/
  | identifier
  /-- A string in quotes. -/
  | string
  /-- Template text. -/
  | templateChunk
  /-- A line feed. -/
  | lineFeed
  /-- White space without line feeds. -/
  | inlineSpace
  /-- White space. -/
  | space
  deriving DecidableEq, Repr

/-- The match of a lexical form at the start of a text. -/
def LexicalForm.match? : LexicalForm → List Char → Option Lexeme
  | .functionHead => Scan.functionHead
  | .yieldHead => Scan.yieldHead
  | .forHead => Scan.forHead
  | .relationalWord => Scan.relationalWord
  | .continueJump => Scan.jump Scan.continueWord
  | .breakJump => Scan.jump Scan.breakWord
  | .importWord => Scan.importWord
  | .exportDefault => Scan.exportDefault
  | .blockComment => Scan.blockComment
  | .lineComment => Scan.lineComment
  | .regex => Scan.regex
  | .number => Scan.number
  | .identifier => Scan.identifier
  | .string => Scan.string
  | .templateChunk => Scan.templateChunk
  | .lineFeed => Scan.lineFeed
  | .inlineSpace => Scan.run fun c => isSpace c && c != '\n'
  | .space => Scan.run isSpace

end ScriptTree
