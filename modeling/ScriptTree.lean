import ScriptTree.Diagnostic.Basic
import ScriptTree.Diagnostic.SyntaxError
import ScriptTree.Grammar.Program
import ScriptTree.Json.Reader
import ScriptTree.Kind
import ScriptTree.Number.Numeral
import ScriptTree.Number.Shortest
import ScriptTree.Printer.Print
import ScriptTree.RoundTrip
import ScriptTree.Text.CharClass
import ScriptTree.Text.Location
import ScriptTree.Token.Lexer
import ScriptTree.Tree.Equality
import ScriptTree.Tree.Estree
import ScriptTree.Tree.Walk
import ScriptTree.Proofs.RuleLaws
import ScriptTree.Proofs.OperandStack
import ScriptTree.Proofs.Exhaustion
import ScriptTree.Proofs.QuietSteps
import ScriptTree.Proofs.BufferDiscipline
import ScriptTree.Proofs.FirstCharacter
import ScriptTree.Proofs.Names
import ScriptTree.Proofs.Standing
import ScriptTree.Proofs.Reading
import ScriptTree.Proofs.Grouping
import ScriptTree.Proofs.OperatorChain
import ScriptTree.Proofs.ChainProgram
import ScriptTree.Proofs.MisreadNames
import ScriptTree.Proofs.ChainGrouping
import ScriptTree.Proofs.FormulaText
import ScriptTree.Proofs.FormulaPlaces
import ScriptTree.Proofs.FormulaLists
import ScriptTree.Proofs.FormulaReading
import ScriptTree.Proofs.FormulaProgram
import ScriptTree.Proofs.Matches
import ScriptTree.Proofs.Coverage
import ScriptTree.Proofs.StateLaws
import ScriptTree.Proofs.WholeSource
import ScriptTree.Proofs.Progress
import ScriptTree.Proofs.StepProgress
import ScriptTree.Proofs.RuleProgress
import ScriptTree.Proofs.StatementProgress
import ScriptTree.Proofs.Termination
import ScriptTree.Proofs.Outcome
import ScriptTree.Proofs.TreeShape
import ScriptTree.Proofs.RuleShape
import ScriptTree.Proofs.ProgramShape
import ScriptTree.Proofs.Brackets
import ScriptTree.Proofs.ReadingAhead
import ScriptTree.Proofs.BracketCrossing
import ScriptTree.Proofs.ArrowDecision
import ScriptTree.Proofs.ArrowAnswers
import ScriptTree.Proofs.StepLaws
import ScriptTree.Proofs.Moments
import ScriptTree.Proofs.SideBySide
import ScriptTree.Proofs.NestingLimit
import ScriptTree.Proofs.NestedPasses
import ScriptTree.Proofs.ArrowCache
import ScriptTree.Proofs.Settled
import ScriptTree.Proofs.SettledKeywords
import ScriptTree.Proofs.SettledLiterals
import ScriptTree.Proofs.SettledRules
import ScriptTree.Proofs.ShiftedStream
import ScriptTree.Proofs.InsertedTrivia
import ScriptTree.Proofs.Keywords
import ScriptTree.Proofs.NameReading
import ScriptTree.Proofs.ModuleReading
import ScriptTree.Proofs.StringPrinting
import ScriptTree.Proofs.ModulePrinting
import ScriptTree.Proofs.StatementTokens
import ScriptTree.Proofs.ClauseReading
import ScriptTree.Proofs.StatementText
import ScriptTree.Proofs.StatementReading
import ScriptTree.Proofs.LoopHeads
import ScriptTree.Proofs.StatementLists
import ScriptTree.Proofs.StatementPrinting
import ScriptTree.Proofs.MemberTokens
import ScriptTree.Proofs.MemberReading
import ScriptTree.Proofs.ClassReading
import ScriptTree.Proofs.ObjectReading
import ScriptTree.Proofs.MemberPrinting
import ScriptTree.Proofs.NameForms
import ScriptTree.Proofs.MemberForms
import ScriptTree.Proofs.NameLists
import ScriptTree.Proofs.NameSpelling
import ScriptTree.Proofs.ByteSlices
import ScriptTree.Proofs.StreamRequests
import ScriptTree.Proofs.Utf8Bytes
import ScriptTree.Proofs.ByteScanners
import ScriptTree.Proofs.ByteLiterals
import ScriptTree.Proofs.ByteStream
import ScriptTree.Proofs.TokenTiling
import ScriptTree.Proofs.ClosedOperand
import ScriptTree.Proofs.SignificantNewlines
import ScriptTree.Proofs.ReadingAgain
import ScriptTree.Proofs.Locations
import ScriptTree.Proofs.ErrorPlaces
import ScriptTree.Proofs.Division
import ScriptTree.Proofs.NameTables
import ScriptTree.Proofs.MaximalMunch
import ScriptTree.Proofs.MemberChains
import ScriptTree.Proofs.NestedParens
import ScriptTree.Proofs.TemplateReading
import ScriptTree.Proofs.TreeEquality
import ScriptTree.Proofs.PrintedAlike
import ScriptTree.Proofs.SpelledNodes
import ScriptTree.Proofs.SpelledTrees
import ScriptTree.Proofs.FirstToken
import ScriptTree.Proofs.ForemostNode
import ScriptTree.Proofs.ExchangeForm
import ScriptTree.Proofs.PrunedWalk
import ScriptTree.Proofs.LineSearch
import ScriptTree.Proofs.NumeralForms
import ScriptTree.Proofs.RegexParts
import ScriptTree.Proofs.LiteralGrammar
import ScriptTree.Proofs.MessageFilling
import ScriptTree.Proofs.PassBalance
