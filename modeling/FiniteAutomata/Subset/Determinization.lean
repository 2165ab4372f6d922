import FiniteAutomata.Automaton.Validity
import FiniteAutomata.Subset.Construction

/-!
# Determinization

A valid automaton that is not deterministic is turned into the deterministic automaton of its
composite states. An automaton that is already deterministic is kept as it is, each declared state
standing for itself.
-/
namespace FiniteAutomata

/-- The default limit on the number of composite states. -/
def defaultStateLimit : Nat := 65536

/-- A deterministic automaton, with the states that each of its states stands for. -/
structure Determinized where
  automaton : Automaton
  composites : Table Nat StateSet

namespace Automaton

/-- The outcome of the subset construction. -/
def subsetConstruction (a : Automaton) (limit : Nat) : Except AutomatonError Determinized :=
  match Construction.construct a limit with
  | .error _ => .error (.limitExceeded limit)
  | .ok k => .ok ⟨k.result, k.composites⟩

/-- Each declared state standing for itself. -/
def selfComposites (a : Automaton) : Table Nat StateSet :=
  .ofList (a.states.toList.map fun q => (q, .singleton q))

/-- A deterministic automaton that accepts the words that `a` accepts. -/
def determinize (a : Automaton) (limit : Nat) :
    Except AutomatonError Determinized :=
  match a.problem? with
  | some e => .error e
  | none => if a.isDeterministic then .ok ⟨a, a.selfComposites⟩ else a.subsetConstruction limit

end Automaton

end FiniteAutomata
