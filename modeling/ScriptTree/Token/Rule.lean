import ScriptTree.Token.LexicalForm
import ScriptTree.Token.Mode

/-!
The table of lexical rules. The first rule that matches wins, so a longer spelling stands before its
beginnings and the keywords before the names.
-/

namespace ScriptTree

/-- How a rule finds its match. -/
inductive Pattern where
  /-- One of these words, where no longer name goes on. -/
  | words (spellings : List String)
  /-- One of these spellings. -/
  | punctuators (spellings : List String)
  /-- A lexical form. -/
  | form (lexical : LexicalForm)
  deriving DecidableEq, Repr

namespace Pattern

/-- The match at the start of a text. -/
def apply (pattern : Pattern) (text : List Char) : Option Lexeme :=
  match pattern with
  | words spellings =>
    (spellings.find? fun word => (afterWord? word.toList text).isSome).map fun word =>
      .whole word.toList
  | punctuators spellings =>
    (spellings.find? fun word => (afterSpelling? word.toList text).isSome).map fun word =>
      .whole word.toList
  | form lexical => lexical.match? text

/-- A list of spellings in quotes and brackets. -/
def quotedList (spellings : List String) : String :=
  "[" ++ ", ".intercalate (spellings.map fun spelling => "\x22" ++ spelling ++ "\x22") ++ "]"

/-- The form in which a pattern is shown. -/
def describe : Pattern → String
  | words spellings => "Words(" ++ quotedList spellings ++ ")"
  | punctuators spellings => "Punctuators(" ++ quotedList spellings ++ ")"
  | form _ => "Scan"

end Pattern

/-- How a rule depends on whether line feeds count. -/
inductive LineFeedUse where
  /-- Not at all. -/
  | any
  /-- It needs them to count. -/
  | significant
  /-- It needs them to be white space. -/
  | insignificant
  deriving DecidableEq, Repr

/-- The name of a use of line feeds. -/
def LineFeedUse.name : LineFeedUse → String
  | .any => "any"
  | .significant => "significant"
  | .insignificant => "insignificant"

/-- A lexical rule. -/
structure Rule where
  /-- The kind of token it makes. -/
  kind : TokenKind
  /-- How it finds its match. -/
  pattern : Pattern
  /-- It is left out where keywords are read as names. -/
  keyword : Bool := false
  /-- How tightly the operator binds. -/
  precedence : Option Nat := none
  /-- How it depends on line feeds. -/
  newline : LineFeedUse := .any
  /-- It may match where an operand has just ended. -/
  afterOperand : Bool := true
  deriving DecidableEq, Repr

namespace Rule

/-- A rule for keywords. -/
def words (kind : TokenKind) (spellings : List String) : Rule :=
  { kind, pattern := .words spellings, keyword := true }

/-- A rule for a keyword with more around it. -/
def keywordForm (kind : TokenKind) (form : LexicalForm) : Rule :=
  { kind, pattern := .form form, keyword := true }

/-- A rule for punctuators and operators. -/
def punctuators (kind : TokenKind) (spellings : List String) : Rule :=
  { kind, pattern := .punctuators spellings }

/-- A rule for a lexical form. -/
def form (kind : TokenKind) (form : LexicalForm) : Rule := { kind, pattern := .form form }

/-- The rule with a binding strength for its operators. -/
def binding (rule : Rule) (precedence : Nat) : Rule := { rule with precedence := some precedence }

/-- Whether a rule is tried in a mode. -/
def appliesIn (rule : Rule) (mode : LexerMode) (afterOperand : Bool) : Bool :=
  (!rule.keyword || mode.keywords) &&
    (!afterOperand || rule.afterOperand || mode.regex) &&
    (match rule.newline with
      | .any => true
      | .significant => mode.significantNewline
      | .insignificant => !mode.significantNewline) &&
    mode.looksFor rule.kind

/-- The rules, in the order in which they are tried. -/
def table : List Rule :=
  [words .reservedWord ["undefined", "null"],
   words .booleanLiteral ["true", "false"],
   words .declarationKeyword ["let", "const", "var"],
   keywordForm .functionKeyword .functionHead,
   (words .operator ["void", "typeof", "delete"]).binding 16,
   words .thisKeyword ["this"],
   (words .newKeyword ["new"]).binding 19,
   keywordForm .yieldKeyword .yieldHead,
   keywordForm .forKeyword .forHead,
   (keywordForm .operator .relationalWord).binding 11,
   words .doKeyword ["do"],
   words .whileKeyword ["while"],
   keywordForm .continueKeyword .continueJump,
   keywordForm .breakKeyword .breakJump,
   words .classKeyword ["class"],
   words .extendsKeyword ["extends"],
   words .staticKeyword ["static"],
   words .getKeyword ["get"],
   words .setKeyword ["set"],
   words .returnKeyword ["return"],
   words .importKeyword ["import"],
   keywordForm .importOperator .importWord,
   keywordForm .exportDefaultKeyword .exportDefault,
   words .exportKeyword ["export"],
   words .ifKeyword ["if"],
   words .elseKeyword ["else"],
   words .switchKeyword ["switch"],
   words .caseKeyword ["case"],
   words .defaultKeyword ["default"],
   punctuators .ellipsis ["..."],
   form .comment .blockComment,
   form .comment .lineComment,
   { form .regexLiteral .regex with afterOperand := false },
   punctuators .arrow ["=>"],
   (punctuators .operator ["===", "!==", "==", "!="]).binding 10,
   punctuators .assignmentOperator
     [">>>=", "**=", "<<=", ">>=", "&&=", "||=", "+=", "-=", "*=", "/=", "%=", "&=", "|=", "^="],
   (punctuators .operator ["++", "--", "!", "~"]).binding 16,
   (punctuators .operator ["**"]).binding 15,
   (punctuators .operator ["*", "/", "%"]).binding 14,
   (punctuators .operator ["+", "-"]).binding 13,
   (punctuators .operator [">>>", "<<", ">>"]).binding 12,
   (punctuators .operator ["<=", ">=", "<", ">"]).binding 11,
   (punctuators .operator ["&&"]).binding 6,
   (punctuators .operator ["||"]).binding 5,
   (punctuators .operator ["&"]).binding 9,
   (punctuators .operator ["^"]).binding 8,
   (punctuators .operator ["|"]).binding 7,
   punctuators .assignmentOperator ["="],
   form .numericLiteral .number,
   form .identifierName .identifier,
   punctuators .dot ["."],
   form .stringLiteral .string,
   punctuators .backtick ["\x60"],
   punctuators .question ["?"],
   punctuators .openParen ["("],
   punctuators .closeParen [")"],
   punctuators .openBrace ["\x7b"],
   punctuators .closeBrace ["\x7d"],
   punctuators .openBracket ["["],
   punctuators .closeBracket ["]"],
   punctuators .semicolon [";"],
   { form .semicolon .lineFeed with newline := .significant },
   { form .whitespace .inlineSpace with newline := .significant },
   { form .whitespace .space with newline := .insignificant },
   punctuators .colon [":"],
   punctuators .comma [","]]

/-- The one rule for template text. -/
def templateChunk : Rule := form .templateChunk .templateChunk

/-- The match of a rule, if it is not empty. -/
def match? (rule : Rule) (text : List Char) : Option (Rule × Lexeme) :=
  ((rule.pattern.apply text).filter fun lexeme => !lexeme.raw.isEmpty).map fun lexeme =>
    (rule, lexeme)

/-- The first rule that is tried in a mode and matches. In template mode there is only one. -/
def first? (mode : LexerMode) (afterOperand : Bool) (text : List Char) : Option (Rule × Lexeme) :=
  if mode.template then templateChunk.match? text
  else table.findSome? fun rule =>
    if rule.appliesIn mode afterOperand then rule.match? text else none

end Rule

end ScriptTree
