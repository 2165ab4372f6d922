import FiniteAutomata.Automaton.Basic

/-!
# Valid automata

An automaton is valid when everything that it refers to is declared, and when every transition reads
a symbol of its alphabet. The check reports the first problem: the initial state, then the final
states, then the sources of transitions in ascending order, and for each source its labels in
ascending order.
-/
namespace FiniteAutomata

/-- A reference that an automaton may not make, with the displayed names of the states. -/
inductive Violation where
  | undeclaredInitial (state : String)
  | undeclaredFinal (state : String)
  | undeclaredSource (state : String)
  | undeclaredTarget (state target : String)
  | unknownSymbol (state : String) (symbol : Char)
  deriving DecidableEq, Repr

/-- Why an automaton cannot be determinized. -/
inductive AutomatonError where
  | malformed (violation : Violation)
  | epsilonTransition (state : String)
  | limitExceeded (limit : Nat)
  deriving DecidableEq, Repr

def Violation.message : Violation → String
  | .undeclaredInitial q => s!"undeclared initial state `{q}`"
  | .undeclaredFinal q => s!"undeclared accepting state `{q}`"
  | .undeclaredSource q => s!"transition from undeclared state `{q}`"
  | .undeclaredTarget q r => s!"transition from `{q}` to undeclared state `{r}`"
  | .unknownSymbol q c =>
    s!"transition from `{q}` on symbol `" ++ String.ofList (escape c) ++ "` outside of the alphabet"

def AutomatonError.message : AutomatonError → String
  | .malformed v => "malformed automaton: " ++ v.message
  | .epsilonTransition q => s!"unsupported epsilon transition from state `{q}`"
  | .limitExceeded n => s!"determinization limit exceeded: more than {n} states"

namespace Automaton

/-- The problem with the initial state. -/
def initialProblem? (a : Automaton) : Option AutomatonError :=
  if a.isDeclared a.initial then none
  else some (.malformed (.undeclaredInitial (a.display a.initial)))

/-- The problem with the least final state that has one. -/
def finalProblem? (a : Automaton) : Option AutomatonError :=
  (a.finals.toList.find? fun q => !a.isDeclared q).map fun q =>
    .malformed (.undeclaredFinal (a.display q))

/-- The problem with the transitions from a state on a label. -/
def labelProblem? (a : Automaton) (source : Nat) (label : Label) (targets : StateSet) :
    Option AutomatonError :=
  match label with
  | none => some (.epsilonTransition (a.display source))
  | some c =>
    if a.alphabet.contains c then
      (targets.toList.find? fun q => !a.isDeclared q).map fun q =>
        .malformed (.undeclaredTarget (a.display source) (a.display q))
    else some (.malformed (.unknownSymbol (a.display source) c))

/-- The problem with the transitions from a state. -/
def rowProblem? (a : Automaton) (source : Nat) (row : Row) : Option AutomatonError :=
  if a.isDeclared source then row.entries.findSome? fun e => a.labelProblem? source e.1 e.2
  else some (.malformed (.undeclaredSource (a.display source)))

/-- The first problem of the automaton. -/
def problem? (a : Automaton) : Option AutomatonError :=
  a.initialProblem? <|> a.finalProblem? <|>
    a.transitions.entries.findSome? fun e => a.rowProblem? e.1 e.2

/-- Checks that the automaton is valid. -/
def validate (a : Automaton) : Except AutomatonError Unit :=
  match a.problem? with
  | some e => .error e
  | none => .ok ()

end Automaton

end FiniteAutomata
