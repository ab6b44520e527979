import ScriptTree.Grammar.Operator
import ScriptTree.Proofs.FirstCharacter

/-!
The operators and the punctuation, as they are read where white space or an operand follows them.
-/

namespace ScriptTree

/-- The spellings that a pattern stands for, if they are a matter of words and symbols only. -/
def Pattern.spellings : Pattern → List String
  | .words spellings | .punctuators spellings => spellings
  | .form .relationalWord => ["instanceof", "in", "of"]
  | .form _ => []

namespace Operator

/-- The binary operators of the rule table, each with its strength. -/
def binaries : List (String × Nat) :=
  Rule.table.flatMap fun rule => match rule.precedence with
    | some strength =>
      if rule.kind = .operator ∧ leastStrength ≤ strength ∧ strength < unaryStrength then
        rule.pattern.spellings.map fun spelling => (spelling, strength)
      else []
    | none => []

/-- The assignment operators of the rule table. -/
def assignments : List String :=
  Rule.table.flatMap fun rule =>
    if rule.kind = .assignmentOperator then rule.pattern.spellings else []

theorem binaries_eq : binaries =
    [("instanceof", 11), ("in", 11), ("of", 11), ("===", 10), ("!==", 10), ("==", 10), ("!=", 10),
     ("**", 15), ("*", 14), ("/", 14), ("%", 14), ("+", 13), ("-", 13), (">>>", 12), ("<<", 12),
     (">>", 12), ("<=", 11), (">=", 11), ("<", 11), (">", 11), ("&&", 6), ("||", 5), ("&", 9),
     ("^", 8), ("|", 7)] := by
  cbv

theorem assignments_eq : assignments =
    [">>>=", "**=", "<<=", ">>=", "&&=", "||=", "+=", "-=", "*=", "/=", "%=", "&=", "|=", "^=",
     "="] := by
  cbv

end Operator

namespace Rule

/-- The rule for comparisons of equality. -/
def equality : Rule := (punctuators .operator ["===", "!==", "==", "!="]).binding 10

/-- The rule for assignments that compute. -/
def compoundAssignment : Rule :=
  punctuators .assignmentOperator
    [">>>=", "**=", "<<=", ">>=", "&&=", "||=", "+=", "-=", "*=", "/=", "%=", "&=", "|=", "^="]

/-- The rule for symbols that stand on one operand only. -/
def unarySymbol : Rule := (punctuators .operator ["++", "--", "!", "~"]).binding 16

/-- The rule for words that stand before one operand. -/
def unaryWord : Rule := (words .operator ["void", "typeof", "delete"]).binding 16

/-- The rule for products. -/
def product : Rule := (punctuators .operator ["*", "/", "%"]).binding 14

/-- The rule for sums. -/
def sum : Rule := (punctuators .operator ["+", "-"]).binding 13

/-- The rule for shifts. -/
def shift : Rule := (punctuators .operator [">>>", "<<", ">>"]).binding 12

/-- The rule for comparisons of size. -/
def comparison : Rule := (punctuators .operator ["<=", ">=", "<", ">"]).binding 11

/-- Rules of the table by the first character of the text, with the proof that for the characters
listed they are all the rules that can match. -/
structure Index where
  rules : List (Char × List Rule)
  complete : ∀ entry ∈ rules, startingWith entry.1 = entry.2

/-- The index of the characters that symbols, words, strings and white space start with. -/
def index : Index where
  rules :=
    [('=', [punctuators .arrow ["=>"], equality, punctuators .assignmentOperator ["="]]),
     ('!', [equality, unarySymbol]),
     ('~', [unarySymbol]),
     ('*', [compoundAssignment, (punctuators .operator ["**"]).binding 15, product]),
     ('/', [form .comment .blockComment, form .comment .lineComment,
       { form .regexLiteral .regex with afterOperand := false }, compoundAssignment, product]),
     ('%', [compoundAssignment, product]),
     ('+', [compoundAssignment, unarySymbol, sum]),
     ('-', [compoundAssignment, unarySymbol, sum]),
     ('>', [compoundAssignment, shift, comparison]),
     ('<', [compoundAssignment, shift, comparison]),
     ('&', [compoundAssignment, (punctuators .operator ["&&"]).binding 6,
       (punctuators .operator ["&"]).binding 9]),
     ('|', [compoundAssignment, (punctuators .operator ["||"]).binding 5,
       (punctuators .operator ["|"]).binding 7]),
     ('^', [compoundAssignment, (punctuators .operator ["^"]).binding 8]),
     ('i', [(keywordForm .operator .relationalWord).binding 11, words .importKeyword ["import"],
       words .ifKeyword ["if"], form .identifierName .identifier]),
     ('o', [(keywordForm .operator .relationalWord).binding 11, form .identifierName .identifier]),
     ('t', [words .booleanLiteral ["true", "false"], unaryWord, words .thisKeyword ["this"],
       form .identifierName .identifier]),
     ('v', [words .declarationKeyword ["let", "const", "var"], unaryWord,
       form .identifierName .identifier]),
     ('d', [unaryWord, words .doKeyword ["do"], words .defaultKeyword ["default"],
       form .identifierName .identifier]),
     ('.', [punctuators .ellipsis ["..."], form .numericLiteral .number, punctuators .dot ["."]]),
     ('?', [punctuators .question ["?"]]),
     ('(', [punctuators .openParen ["("]]),
     (')', [punctuators .closeParen [")"]]),
     ('[', [punctuators .openBracket ["["]]),
     (']', [punctuators .closeBracket ["]"]]),
     (';', [punctuators .semicolon [";"]]),
     (':', [punctuators .colon [":"]]),
     (',', [punctuators .comma [","]]),
     (' ', [{ form .whitespace .inlineSpace with newline := .significant },
       { form .whitespace .space with newline := .insignificant }]),
     ('\n', [{ form .semicolon .lineFeed with newline := .significant },
       { form .whitespace .inlineSpace with newline := .significant },
       { form .whitespace .space with newline := .insignificant }]),
     ('a', [keywordForm .functionKeyword .functionHead, keywordForm .importOperator .importWord,
       form .identifierName .identifier]),
     ('b', [keywordForm .breakKeyword .breakJump, form .identifierName .identifier]),
     ('c', [words .declarationKeyword ["let", "const", "var"],
       keywordForm .continueKeyword .continueJump, words .classKeyword ["class"],
       words .caseKeyword ["case"], form .identifierName .identifier]),
     ('e', [words .extendsKeyword ["extends"], keywordForm .exportDefaultKeyword .exportDefault,
       words .exportKeyword ["export"], words .elseKeyword ["else"], form .identifierName .identifier]),
     ('f', [words .booleanLiteral ["true", "false"], keywordForm .functionKeyword .functionHead,
       keywordForm .forKeyword .forHead, keywordForm .importOperator .importWord,
       form .identifierName .identifier]),
     ('g', [words .getKeyword ["get"], form .identifierName .identifier]),
     ('l', [words .declarationKeyword ["let", "const", "var"], form .identifierName .identifier]),
     ('r', [words .returnKeyword ["return"], form .identifierName .identifier]),
     ('s', [words .staticKeyword ["static"], words .setKeyword ["set"],
       words .switchKeyword ["switch"], form .identifierName .identifier]),
     ('w', [words .whileKeyword ["while"], form .identifierName .identifier]),
     ('y', [keywordForm .yieldKeyword .yieldHead, form .identifierName .identifier]),
     ('\x7b', [punctuators .openBrace ["\x7b"]]),
     ('\x7d', [punctuators .closeBrace ["\x7d"]]),
     ('\x60', [punctuators .backtick ["\x60"]]),
     ('\x27', [form .stringLiteral .string]),
     ('\x22', [form .stringLiteral .string])]
  complete := by decide +kernel

theorem startingWith_of_lookup {c : Char} {rules : List Rule}
    (h : index.rules.lookup c = some rules) : startingWith c = rules := by
  obtain ⟨_, _, he, -⟩ := List.lookup_eq_some_iff.mp h
  exact index.complete (c, rules) (by simp [he])

end Rule

/-- A text starts with a token of a kind, a strength and a value, where some text follows. -/
def Begins (mode : LexerMode) (afterOperand : Bool) (kind : TokenKind) (precedence : Option Nat)
    (value rest : List Char) : Prop :=
  ∃ rule : Rule, Rule.first? mode afterOperand (value ++ rest) = some (rule, .whole value) ∧
    rule.kind = kind ∧ rule.precedence = precedence

section Symbols

open Rule

theorem begins_of_lookup {afterOperand : Bool} {kind : TokenKind} {precedence : Option Nat}
    {rules : List Rule} {rule : Rule} {c : Char} {value rest : List Char}
    (hs : index.rules.lookup c = some rules)
    (hr : (rules.findSome? fun rule =>
      if rule.appliesIn .default afterOperand then rule.match? (c :: (value ++ rest)) else none) =
        some (rule, .whole (c :: value)))
    (hk : rule.kind = kind) (hp : rule.precedence = precedence) :
    Begins .default afterOperand kind precedence (c :: value) rest :=
  ⟨rule, first?_of_startingWith rfl (startingWith_of_lookup hs) hr, hk, hp⟩

/-- A binary operator behind an operand and before a space is read as such. A slash is no regular
expression there. -/
theorem begins_binary {operator : String} {strength : Nat}
    (h : (operator, strength) ∈ Operator.binaries) (rest : List Char) :
    Begins .default true .operator (some strength) operator.toList (' ' :: rest) := by
  rw [Operator.binaries_eq] at h
  simp only [List.mem_cons, List.not_mem_nil, or_false, Prod.mk.injEq] at h
  rcases h with ⟨rfl, rfl⟩ | ⟨rfl, rfl⟩ | ⟨rfl, rfl⟩ | ⟨rfl, rfl⟩ | ⟨rfl, rfl⟩ | ⟨rfl, rfl⟩ |
    ⟨rfl, rfl⟩ | ⟨rfl, rfl⟩ | ⟨rfl, rfl⟩ | ⟨rfl, rfl⟩ | ⟨rfl, rfl⟩ | ⟨rfl, rfl⟩ | ⟨rfl, rfl⟩ |
    ⟨rfl, rfl⟩ | ⟨rfl, rfl⟩ | ⟨rfl, rfl⟩ | ⟨rfl, rfl⟩ | ⟨rfl, rfl⟩ | ⟨rfl, rfl⟩ | ⟨rfl, rfl⟩ |
    ⟨rfl, rfl⟩ | ⟨rfl, rfl⟩ | ⟨rfl, rfl⟩ | ⟨rfl, rfl⟩ | ⟨rfl, rfl⟩
  -- the few rules left for each first symbol are run on the spelling and the space
  all_goals exact begins_of_lookup rfl rfl rfl rfl

theorem begins_assignment {operator : String} (h : operator ∈ Operator.assignments)
    (rest : List Char) :
    Begins .default true .assignmentOperator none operator.toList (' ' :: rest) := by
  rw [Operator.assignments_eq] at h
  simp only [List.mem_cons, List.not_mem_nil, or_false] at h
  rcases h with rfl | rfl | rfl | rfl | rfl | rfl | rfl | rfl | rfl | rfl | rfl | rfl | rfl | rfl | rfl
  all_goals exact begins_of_lookup rfl rfl rfl rfl

/-- The marks that are always a token of their own. -/
def marks : List (Char × TokenKind) :=
  [('(', .openParen), (')', .closeParen), ('[', .openBracket), (']', .closeBracket),
   ('?', .question), (':', .colon), (',', .comma), (';', .semicolon)]

theorem begins_mark {c : Char} {kind : TokenKind} (h : (c, kind) ∈ marks) (afterOperand : Bool)
    (rest : List Char) : Begins .default afterOperand kind none [c] rest := by
  simp only [marks, List.mem_cons, List.not_mem_nil, or_false, Prod.mk.injEq] at h
  cases afterOperand <;>
  rcases h with ⟨rfl, rfl⟩ | ⟨rfl, rfl⟩ | ⟨rfl, rfl⟩ | ⟨rfl, rfl⟩ | ⟨rfl, rfl⟩ | ⟨rfl, rfl⟩ |
    ⟨rfl, rfl⟩ | ⟨rfl, rfl⟩
  all_goals exact begins_of_lookup rfl rfl rfl rfl

theorem begins_unaryWord {operator : String} (h : operator ∈ ["typeof", "void", "delete"])
    (afterOperand : Bool) (rest : List Char) :
    Begins .default afterOperand .operator (some 16) operator.toList (' ' :: rest) := by
  simp only [List.mem_cons, List.not_mem_nil, or_false] at h
  cases afterOperand <;> rcases h with rfl | rfl | rfl
  all_goals exact begins_of_lookup rfl rfl rfl rfl

-- what a rule does with a text is found by unfolding it
attribute [local simp] words punctuators form binding equality compoundAssignment unarySymbol
  unaryWord sum appliesIn LexerMode.default LexerMode.looksFor match? Pattern.apply afterWord?
  afterSpelling? Lexeme.whole Lexeme.raw

theorem begins_this {rest : List Char} (h : atBoundary rest = true) (afterOperand : Bool) :
    Begins .default afterOperand .thisKeyword none ['t', 'h', 'i', 's'] rest := by
  have hr : ([words .booleanLiteral ["true", "false"], unaryWord, words .thisKeyword ["this"],
        form .identifierName .identifier].findSome? fun rule =>
      if rule.appliesIn .default afterOperand then
        rule.match? ('t' :: (['h', 'i', 's'] ++ rest)) else none) =
      some (words .thisKeyword ["this"], .whole ['t', 'h', 'i', 's']) := by
    simp [h]
  exact begins_of_lookup rfl hr rfl rfl

/-- A symbol before an operand is read alone: no longer symbol goes on with the operand. -/
theorem begins_unarySymbol {operator : String} (h : operator ∈ ["!", "~", "+", "-"]) {c : Char}
    (he : c ≠ '=') (hp : c ≠ '+') (hm : c ≠ '-') (afterOperand : Bool) (rest : List Char) :
    ∃ strength, Begins .default afterOperand .operator (some strength) operator.toList
      (c :: rest) := by
  simp only [List.mem_cons, List.not_mem_nil, or_false] at h
  rcases h with rfl | rfl | rfl | rfl
  -- each symbol could go on to a longer one: `!=`, `+=`, `++`, `-=`, `--`
  · have hr : ([equality, unarySymbol].findSome? fun rule =>
          if rule.appliesIn .default afterOperand then rule.match? ('!' :: ([] ++ c :: rest))
          else none) = some (unarySymbol, .whole ['!']) := by
      simp [he.symm]
    exact ⟨16, begins_of_lookup rfl hr rfl rfl⟩
  · cases afterOperand <;> exact ⟨16, begins_of_lookup rfl rfl rfl rfl⟩
  · have hr : ([compoundAssignment, unarySymbol, sum].findSome? fun rule =>
          if rule.appliesIn .default afterOperand then rule.match? ('+' :: ([] ++ c :: rest))
          else none) = some (sum, .whole ['+']) := by
      simp [he.symm, hp.symm]
    exact ⟨13, begins_of_lookup rfl hr rfl rfl⟩
  · have hr : ([compoundAssignment, unarySymbol, sum].findSome? fun rule =>
          if rule.appliesIn .default afterOperand then rule.match? ('-' :: ([] ++ c :: rest))
          else none) = some (sum, .whole ['-']) := by
      simp [he.symm, hm.symm]
    exact ⟨13, begins_of_lookup rfl hr rfl rfl⟩

theorem begins_dot {c : Char} (hd : c.isDigit = false) (hp : c ≠ '.') (afterOperand : Bool)
    (rest : List Char) : Begins .default afterOperand .dot none ['.'] (c :: rest) := by
  -- a point before a digit would be the start of a number
  have hn : Scan.number ('.' :: c :: rest) = none := by
    simp [Scan.number, Scan.numeral?, Scan.radixInteger?, Scan.mantissa?, hd]
  have hr : ([punctuators .ellipsis ["..."], form .numericLiteral .number,
        punctuators .dot ["."]].findSome? fun rule =>
      if rule.appliesIn .default afterOperand then rule.match? ('.' :: ([] ++ c :: rest))
      else none) = some (punctuators .dot ["."], .whole ['.']) := by
    simp [LexicalForm.match?, hn, hp.symm]
  exact begins_of_lookup rfl hr rfl rfl

/-- The rule for white space where line feeds do not count. -/
def anySpace : Rule := { form .whitespace .space with newline := .insignificant }

theorem first?_space {c : Char} (h : c = ' ' ∨ c = '\n') (afterOperand : Bool) (text : List Char) :
    first? .default afterOperand (c :: text) =
      some (anySpace, .whole (c :: text.takeWhile isSpace)) := by
  rcases h with rfl | rfl <;> cases afterOperand <;>
    exact first?_of_startingWith rfl (startingWith_of_lookup rfl) rfl

end Symbols

end ScriptTree
