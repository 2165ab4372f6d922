import FiniteAutomata.Pattern.Fault
import FiniteAutomata.Pattern.Node

/-!
# The depth of patterns

The parts of a pattern that have parts of their own may be nested to a limited depth.
-/
namespace FiniteAutomata.Pattern

mutual

/-- The first part of a class that is nested more than `levels` deep. -/
def ClassNode.tooDeep? (levels : Nat) : ClassNode → Option Span
  | .bracket span _ content => if levels = 0 then some span else content.tooDeep? (levels - 1)
  | .union span items => if levels = 0 then some span else firstClassTooDeep? (levels - 1) items
  | .operation span _ left right =>
    if levels = 0 then some span
    else left.tooDeep? (levels - 1) <|> right.tooDeep? (levels - 1)
  | .empty _ | .literal _ | .range _ _ _ | .ascii _ _ _ | .short _ _ _ | .property _ _ => none

/-- The first part of some classes that is nested more than `levels` deep. -/
def firstClassTooDeep? (levels : Nat) : List ClassNode → Option Span
  | [] => none
  | c :: cs => c.tooDeep? levels <|> firstClassTooDeep? levels cs

end

mutual

/-- The first part of a pattern that is nested more than `levels` deep. -/
def Node.tooDeep? (levels : Nat) : Node → Option Span
  | .bracket span _ content => if levels = 0 then some span else content.tooDeep? (levels - 1)
  | .repetition span _ _ _ operand =>
    if levels = 0 then some span else operand.tooDeep? (levels - 1)
  | .group span _ _ content => if levels = 0 then some span else content.tooDeep? (levels - 1)
  | .alternatives span branches =>
    if levels = 0 then some span else firstTooDeep? (levels - 1) branches
  | .concatenation span items =>
    if levels = 0 then some span else firstTooDeep? (levels - 1) items
  | .empty _ | .flags _ _ | .atom _ => none

/-- The first part of some patterns that is nested more than `levels` deep. -/
def firstTooDeep? (levels : Nat) : List Node → Option Span
  | [] => none
  | n :: ns => n.tooDeep? levels <|> firstTooDeep? levels ns

end

/-- Refuses a pattern whose parts are nested too deep. -/
def Node.checkDepth (n : Node) : Except FaultAt Unit :=
  match n.tooDeep? maxDepth with
  | none => .ok ()
  | some span => .error ⟨.tooDeep, span, none⟩

end FiniteAutomata.Pattern
