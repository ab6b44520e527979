import ScriptTree.Grammar.Program
import ScriptTree.Printer.Print

/-!
Parsing, printing and parsing again: the second tree should be the same as the first, and printing
it should change nothing more.
-/

namespace ScriptTree

namespace RoundTrip

/-- How a round trip can end without success. -/
inductive Mishap where
  /-- The text itself is no program. -/
  | unparsed (failure : Failure)
  /-- The printed text is no program. -/
  | unparsedAgain (failure : Failure) (printed : String)
  /-- The printed text is another program. -/
  | changed (printed : String)
  /-- The second printing differs from the first. -/
  | unstable (first second : String)
  deriving DecidableEq, Repr

/-- The line shown for a failed parse. -/
def failureText : Failure → String
  | .rejected error => error.display
  | .outOfSteps => "out of steps"

/-- The report on a mishap after the first parse. -/
def Mishap.report? : Mishap → Option String
  | .unparsed _ => none
  | .unparsedAgain failure printed =>
    some ("re-parse failed: " ++ failureText failure ++ "\n--- printed ---\n" ++ printed)
  | .changed printed => some ("tree changed after printing\n--- printed ---\n" ++ printed)
  | .unstable first second =>
    some ("printing is not stable\n--- first ---\n" ++ first ++ "\n--- second ---\n" ++ second)

/-- The printed form of a program, if it reads back as the same program. -/
def run (source : String) : Except Mishap String :=
  match Node.ofSource source with
  | .error failure => .error (.unparsed failure)
  | .ok first =>
    let printed := first.toSource
    match Node.ofSource printed with
    | .error failure => .error (.unparsedAgain failure printed)
    | .ok second =>
      if first.same second then
        let again := second.toSource
        if again = printed then .ok printed else .error (.unstable printed again)
      else .error (.changed printed)

/-- Whether two texts are the same program. -/
def sameProgram (left right : String) : Except Failure Bool := do
  let first ← Node.ofSource left
  let second ← Node.ofSource right
  pure (first.same second)

end RoundTrip

end ScriptTree
