import ScriptTree.Proofs.Symbols

/-!
The words of statements and of modules, braces and strings, as they are read where white space or a
mark follows them.
-/

namespace ScriptTree

open Rule

/-- The braces. -/
def braces : List (Char × TokenKind) := [('\x7b', .openBrace), ('\x7d', .closeBrace)]

theorem begins_brace {c : Char} {kind : TokenKind} (h : (c, kind) ∈ braces) (afterOperand : Bool)
    (rest : List Char) : Begins .default afterOperand kind none [c] rest := by
  simp only [braces, List.mem_cons, List.not_mem_nil, or_false, Prod.mk.injEq] at h
  cases afterOperand <;> rcases h with ⟨rfl, rfl⟩ | ⟨rfl, rfl⟩
  all_goals exact begins_of_lookup rfl rfl rfl rfl

/-- The words that rename or that name a module, before a space. -/
theorem begins_importWord {word : String} (h : word ∈ ["as", "from"]) (afterOperand : Bool)
    (rest : List Char) :
    Begins .default afterOperand .importOperator none word.toList (' ' :: rest) := by
  simp only [List.mem_cons, List.not_mem_nil, or_false] at h
  cases afterOperand <;> rcases h with rfl | rfl
  all_goals exact begins_of_lookup rfl rfl rfl rfl

theorem begins_import (afterOperand : Bool) (rest : List Char) :
    Begins .default afterOperand .importKeyword none "import".toList (' ' :: rest) := by
  cases afterOperand
  all_goals exact begins_of_lookup rfl rfl rfl rfl

theorem begins_export (afterOperand : Bool) (rest : List Char) :
    Begins .default afterOperand .exportKeyword none "export".toList (' ' :: '\x7b' :: rest) := by
  cases afterOperand
  all_goals exact begins_of_lookup rfl rfl rfl rfl

theorem begins_star (afterOperand : Bool) (rest : List Char) :
    Begins .default afterOperand .operator (some 14) ['*'] (' ' :: rest) := by
  cases afterOperand
  all_goals exact begins_of_lookup rfl rfl rfl rfl

/-- The keywords of statements that a space follows. -/
def statementWords : List (String × TokenKind) :=
  [("if", .ifKeyword), ("else", .elseKeyword), ("while", .whileKeyword), ("do", .doKeyword),
   ("switch", .switchKeyword), ("case", .caseKeyword), ("return", .returnKeyword),
   ("let", .declarationKeyword), ("const", .declarationKeyword), ("var", .declarationKeyword)]

theorem begins_statementWord {word : String} {kind : TokenKind} (h : (word, kind) ∈ statementWords)
    (afterOperand : Bool) (rest : List Char) :
    Begins .default afterOperand kind none word.toList (' ' :: rest) := by
  simp only [statementWords, List.mem_cons, List.not_mem_nil, or_false, Prod.mk.injEq] at h
  cases afterOperand <;>
  rcases h with ⟨rfl, rfl⟩ | ⟨rfl, rfl⟩ | ⟨rfl, rfl⟩ | ⟨rfl, rfl⟩ | ⟨rfl, rfl⟩ | ⟨rfl, rfl⟩ |
    ⟨rfl, rfl⟩ | ⟨rfl, rfl⟩ | ⟨rfl, rfl⟩ | ⟨rfl, rfl⟩
  all_goals exact begins_of_lookup rfl rfl rfl rfl

theorem begins_return (afterOperand : Bool) (rest : List Char) :
    Begins .default afterOperand .returnKeyword none "return".toList (';' :: rest) := by
  cases afterOperand
  all_goals exact begins_of_lookup rfl rfl rfl rfl

theorem begins_default (afterOperand : Bool) (rest : List Char) :
    Begins .default afterOperand .defaultKeyword none "default".toList (':' :: rest) := by
  cases afterOperand
  all_goals exact begins_of_lookup rfl rfl rfl rfl

end ScriptTree
