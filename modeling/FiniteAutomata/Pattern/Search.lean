import FiniteAutomata.Pattern.Depth
import FiniteAutomata.Pattern.Footprint
import FiniteAutomata.Pattern.Matching
import FiniteAutomata.Pattern.Meaning
import FiniteAutomata.Pattern.Reader
import FiniteAutomata.Pattern.Report

/-!
# Searching with patterns

A pattern is read into the expression that is searched for, or is refused with a reason.
-/
namespace FiniteAutomata.Pattern

/-- Why a pattern is refused. -/
inductive PatternError where
  | faulty (pattern : List Char) (e : FaultAt)
  | tooLarge
  /-- Words of all of Unicode are not told apart. -/
  | unicodeWords
  deriving DecidableEq, Repr

/-- The reason in words. -/
def PatternError.message : PatternError → String
  | faulty pattern e => e.report pattern
  | tooLarge => "Compiled regex exceeds size limit of " ++ toString maxFootprint ++ " bytes."
  | unicodeWords => "error building NFA"

/-- The expression of a pattern, if it has no fault. -/
def meaningOf (pattern : List Char) : Except FaultAt Expression := do
  let node ← Node.ofPattern pattern
  node.checkDepth
  let (e, _) ← node.meaning {}
  return e

/-- The expression to search for. -/
def Expression.ofPattern (pattern : List Char) : Except PatternError Expression :=
  match meaningOf pattern with
  | .error e => .error (.faulty pattern e)
  | .ok e =>
    if e.isTooLarge then .error .tooLarge
    else if e.asksForUnicodeWords then .error .unicodeWords
    else .ok e

end FiniteAutomata.Pattern
