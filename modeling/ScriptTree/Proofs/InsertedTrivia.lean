import Mathlib.Data.List.Infix
import ScriptTree.Proofs.ArrowAnswers
import ScriptTree.Proofs.ShiftedStream
import ScriptTree.Proofs.SideBySide
import ScriptTree.Tree.Equality

/-!
A space or a comment put into a text makes no difference to its tree, unless a reading can tell.

The parse of the text and that of the text with the piece go side by side: whatever the first reads,
the second reads as well, at its place. That goes for the passes ahead from opening parentheses, too;
the answers that they leave behind belong to the parentheses wherever these have got to.
-/

namespace ScriptTree

namespace Lookahead

section Relocated

variable (move : Nat → Nat) (ahead : Lookahead)

end Relocated

end Lookahead

namespace Insertion

variable {insertion : Insertion}

end Insertion

namespace ParserM

variable {insertion : Insertion}

end ParserM

namespace Parser

open ParserM

end Parser

namespace Insertion

open ParserM

variable {insertion : Insertion}

end Insertion

namespace Parser

open ParserM

end Parser

end ScriptTree
