import FiniteAutomata.Description.Reader
import FiniteAutomata.Files.Tree

/-!
# Loading automata

An automaton is loaded from a file that holds its description.
-/
namespace FiniteAutomata

/-- Why an automaton cannot be loaded. -/
inductive LoadError where
  | file (error : FileError)
  | description (error : DescriptionError)
  deriving DecidableEq, Repr

def LoadError.message : LoadError → String
  | .file e => e.message
  | .description e => e.message

/-- The automaton that a file describes. -/
def FileTree.loadAutomaton (t : FileTree) (p : Path) : Except LoadError Automaton :=
  match t.readText p with
  | .error e => .error (.file e)
  | .ok text =>
    match Automaton.ofDescription text with
    | .error e => .error (.description e)
    | .ok a => .ok a

end FiniteAutomata
