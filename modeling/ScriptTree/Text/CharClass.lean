import ScriptTree.Text.NameTable

/-!
The character classes that the lexical rules are written in.
-/

namespace ScriptTree

/-- Characters that end a line. Only `\n` counts lines; the others are mere white space. -/
def isLineBreak (c : Char) : Bool :=
  c == '\n' || c == '\r' || c == '\u2028' || c == '\u2029'

/-- White space that stays on its line. The two zero-width joiners count, though both may also
continue a name. -/
def isInlineSpace (c : Char) : Bool :=
  c == ' ' || c == '\t' || c == '\x0b' || c == '\x0c' || c == '\u00a0' || c == '\u1680' ||
    (decide ('\u2000' ≤ c) && decide (c ≤ '\u200a')) || c == '\u200c' || c == '\u200d' ||
    c == '\u202f' || c == '\u205f' || c == '\u3000' || c == '\ufeff'

/-- White space between tokens. -/
def isSpace (c : Char) : Bool := isInlineSpace c || isLineBreak c

/-- The Unicode property `White_Space`. Error reports look past these characters; the set differs
from `isSpace` at U+0085, U+200C, U+200D and U+FEFF. -/
def isUnicodeBlank (c : Char) : Bool :=
  (decide ('\t' ≤ c) && decide (c ≤ '\r')) || c == ' ' || c == '\u0085' || c == '\u00a0' ||
    c == '\u1680' || (decide ('\u2000' ≤ c) && decide (c ≤ '\u200a')) || c == '\u2028' ||
    c == '\u2029' || c == '\u202f' || c == '\u205f' || c == '\u3000'

/-- Characters that may start a name. -/
def isNameStart (c : Char) : Bool := c == '_' || c == '$' || c.isAlpha || isWideNameStart c

/-- Characters that may continue a name. -/
def isNamePart (c : Char) : Bool := c == '_' || c == '$' || c.isAlphanum || isWideNamePart c

/-- Hexadecimal digits of either case. -/
def isHexDigit (c : Char) : Bool :=
  c.isDigit || (decide ('a' ≤ c) && decide (c ≤ 'f')) || (decide ('A' ≤ c) && decide (c ≤ 'F'))

/-- Octal digits. -/
def isOctalDigit (c : Char) : Bool := decide ('0' ≤ c) && decide (c ≤ '7')

/-- Binary digits. -/
def isBinaryDigit (c : Char) : Bool := c == '0' || c == '1'

/-- Flag letters of a regular expression. -/
def isRegexFlag (c : Char) : Bool :=
  c == 'd' || c == 'g' || c == 'i' || c == 'm' || c == 's' || c == 'u' || c == 'v' || c == 'y'

end ScriptTree
