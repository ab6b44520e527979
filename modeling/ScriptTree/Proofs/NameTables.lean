import ScriptTree.Proofs.Names

/-!
The lexical rules over any answer to which characters beyond ASCII may stand in a name.

Only the forms that end at a name or read one ask for these answers. They are given here with the
answers as a parameter; with those of the Unicode tables they are the forms of the rules.
-/

namespace ScriptTree

/-- Answers to which characters beyond ASCII start a name and which go on with one. -/
structure NameTables where
  /-- Whether a character beyond ASCII starts a name. -/
  startsWide : Char → Bool
  /-- Whether a character beyond ASCII goes on with a name. -/
  continuesWide : Char → Bool
  /-- No white space beyond ASCII starts a name. Some of it may go on with one. -/
  startsWide_space : ∀ c, isSpace c = true → 0x7F < c.toNat → startsWide c = false

namespace NameTables

/-- The answers of the Unicode tables. -/
def unicode : NameTables where
  startsWide c := inRanges nameStartRanges c.toNat
  continuesWide c := inRanges nameStartRanges c.toNat || inRanges nameContinueRanges c.toNat
  startsWide_space := by
    intro c hspace hwide
    by_contra hstart
    have hstarts : isWideNameStart c = true := by
      rw [isWideNameStart, decide_eq_true hwide, (Bool.not_eq_false _).mp hstart, Bool.and_self]
    have hname : isNameStart c = true := by rw [isNameStart, hstarts, Bool.or_true]
    have hno : isSpace c = false := isSpace_of_isNameStart hname
    rw [hspace] at hno
    cases hno

section Forms

variable (names : NameTables)

/-- Characters that may start a name. -/
def isStart (c : Char) : Bool :=
  c == '_' || c == '$' || c.isAlpha || (decide (0x7F < c.toNat) && names.startsWide c)

/-- Characters that may continue a name. -/
def isPart (c : Char) : Bool :=
  c == '_' || c == '$' || c.isAlphanum || (decide (0x7F < c.toNat) && names.continuesWide c)

/-- Whether no name goes on at the start of a text. -/
def atBoundary : List Char → Bool
  | [] => true
  | c :: _ => !names.isPart c

/-- The text behind a word, if it starts with the word and no longer name. -/
def afterWord? (word text : List Char) : Option (List Char) :=
  (afterSpelling? word text).filter names.atBoundary

/-- What follows the word of a generator form. -/
def starOrBoundary? (text : List Char) : Option (List Char) :=
  match afterSpace text with
  | '*' :: _ => some (leadingSpace text ++ ['*'])
  | _ => if names.atBoundary text then some [] else none

/-- `function`, with a star for a generator. -/
def plainFunction? (text : List Char) : Option (List Char) := do
  let rest ← afterSpelling? Scan.functionWord text
  let star ← names.starOrBoundary? rest
  some (Scan.functionWord ++ star)

/-- The head of a function. -/
def functionHead (text : List Char) : Option Lexeme :=
  match afterSpelling? Scan.asyncWord text with
  | some rest =>
    if (leadingSpace rest).isEmpty then none
    else (names.plainFunction? (afterSpace rest)).map fun head =>
      .whole (Scan.asyncWord ++ leadingSpace rest ++ head)
  | none => (names.plainFunction? text).map .whole

/-- `yield`, with a star for a delegation. -/
def yieldHead (text : List Char) : Option Lexeme := do
  let rest ← afterSpelling? Scan.yieldWord text
  let star ← names.starOrBoundary? rest
  some (.whole (Scan.yieldWord ++ star))

/-- The keyword part of a loop head and the text behind it. -/
def forWords? (text : List Char) : Option (List Char × List Char) := do
  let rest ← names.afterWord? Scan.forWord text
  if (leadingSpace rest).isEmpty then some (Scan.forWord, rest)
  else match names.afterWord? Scan.awaitWord (afterSpace rest) with
    | some behind => some (Scan.forWord ++ leadingSpace rest ++ Scan.awaitWord, behind)
    | none => some (Scan.forWord, rest)

/-- The head of a loop up to and with its opening parenthesis. -/
def forHead (text : List Char) : Option Lexeme := do
  let (words, rest) ← names.forWords? text
  match afterSpace rest with
  | '(' :: _ => some ⟨[], words, leadingSpace rest ++ ['(']⟩
  | _ => none

/-- The first of some words that the text starts with, if white space follows it. -/
def wordBeforeSpace (words : List (List Char)) (text : List Char) : Option Lexeme :=
  words.findSome? fun word =>
    match names.afterWord? word text with
    | some (c :: _) => if isSpace c then some (.whole word) else none
    | _ => none

/-- `export default`. -/
def exportDefault (text : List Char) : Option Lexeme := do
  let rest ← names.afterWord? Scan.exportWord text
  if (leadingSpace rest).isEmpty then none
  else do
    let _ ← names.afterWord? Scan.defaultWord (afterSpace rest)
    some (.whole (Scan.exportWord ++ leadingSpace rest ++ Scan.defaultWord))

/-- The longest name at the start of a text. -/
def name? : List Char → Option (List Char)
  | [] => none
  | c :: text => if names.isStart c then some (c :: text.takeWhile names.isPart) else none

/-- A jump with its label on the same line. -/
def jump (word text : List Char) : Option Lexeme := do
  let rest ← names.afterWord? word text
  let gap := rest.takeWhile Scan.isGap
  if gap.isEmpty then some ⟨word, [], []⟩
  else match names.name? (rest.dropWhile Scan.isGap) with
    | some label => some ⟨word ++ gap, label, []⟩
    | none => some ⟨word, [], []⟩

/-- A number that does not run straight into a name. -/
def number (text : List Char) : Option Lexeme :=
  match Scan.numeral? text with
  | some numeral => match text.drop numeral.length with
    | c :: _ => if names.isStart c then none else some (.whole numeral)
    | [] => some (.whole numeral)
  | none => none

/-- The match of a lexical form at the start of a text. The forms that have nothing to do with names
are those of the rules. -/
def form : LexicalForm → List Char → Option Lexeme
  | .functionHead => names.functionHead
  | .yieldHead => names.yieldHead
  | .forHead => names.forHead
  | .relationalWord =>
    names.wordBeforeSpace [['i', 'n', 's', 't', 'a', 'n', 'c', 'e', 'o', 'f'], ['i', 'n'], ['o', 'f']]
  | .continueJump => names.jump Scan.continueWord
  | .breakJump => names.jump Scan.breakWord
  | .importWord => names.wordBeforeSpace [['a', 's'], ['f', 'r', 'o', 'm']]
  | .exportDefault => names.exportDefault
  | .number => names.number
  | .identifier => fun text => (names.name? text).map .whole
  | other => other.match?

/-- The match of a pattern at the start of a text. -/
def apply (pattern : Pattern) (text : List Char) : Option Lexeme :=
  match pattern with
  | .words spellings =>
    (spellings.find? fun word => (names.afterWord? word.toList text).isSome).map fun word =>
      .whole word.toList
  | .punctuators spellings => (Pattern.punctuators spellings).apply text
  | .form lexical => names.form lexical text

/-- The match of a rule, if it is not empty. -/
def match? (rule : Rule) (text : List Char) : Option (Rule × Lexeme) :=
  ((names.apply rule.pattern text).filter fun lexeme => !lexeme.raw.isEmpty).map fun lexeme =>
    (rule, lexeme)

/-- The first rule that is tried in a mode and matches. -/
def first? (mode : LexerMode) (afterOperand : Bool) (text : List Char) : Option (Rule × Lexeme) :=
  if mode.template then names.match? Rule.templateChunk text
  else Rule.table.findSome? fun rule =>
    if rule.appliesIn mode afterOperand then names.match? rule text else none

end Forms

/-! ### The Unicode tables -/

/-- Form by form, what asks the tables comes to what the rules ask: the forms differ in nothing but
whom they ask. -/
theorem form_unicode (lexical : LexicalForm) : unicode.form lexical = lexical.match? := by
  cases lexical <;> rfl

theorem apply_unicode (pattern : Pattern) (text : List Char) :
    unicode.apply pattern text = pattern.apply text := by
  cases pattern with
  | words spellings => rfl
  | punctuators spellings => rfl
  | form lexical => rw [apply, Pattern.apply, form_unicode]

/-- With the Unicode tables the first rule is the one that the lexer finds. -/
theorem first?_unicode (mode : LexerMode) (afterOperand : Bool) (text : List Char) :
    unicode.first? mode afterOperand text = Rule.first? mode afterOperand text := by
  have hmatch (rule : Rule) : unicode.match? rule text = rule.match? text := by
    rw [match?, Rule.match?, apply_unicode]
  simp only [first?, Rule.first?, hmatch]

end NameTables

end ScriptTree
