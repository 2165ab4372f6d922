import FiniteAutomata.Automaton.Basic
import FiniteAutomata.Description.Name

/-!
# Writing descriptions

The description of an automaton has one line for each of its four declarations, then one line of
transitions for each state that has some. Declared values are each preceded by a space, transitions
are separated by commas, and every line ends with a line feed. Of an alphabet that measures nothing
no symbol is declared.
-/
namespace FiniteAutomata

/-- The line that declares some values. -/
def declarationLine (k : Keyword) (values : List (List Char)) : List Char :=
  k.text.toList ++ ':' :: values.flatMap (' ' :: ·)

/-- The written form of a label. -/
def labelText : Label → List Char
  | none => ['ε']
  | some c => escape c

namespace Automaton

/-- The written form of the name of a state. -/
def nameText (a : Automaton) (q : Nat) : List Char := escapeName (a.display q)

/-- The written forms of the transitions on a label. -/
def entryTexts (a : Automaton) (label : Label) (targets : StateSet) : List (List Char) :=
  targets.toList.map fun r => ' ' :: labelText label ++ ' ' :: a.nameText r

/-- The line of the transitions of a state. -/
def rowLine (a : Automaton) (q : Nat) (row : Row) : List Char :=
  a.nameText q ++ ':' :: [','].intercalate (row.entries.flatMap fun e => a.entryTexts e.1 e.2)

/-- The written forms of the symbols that are declared. -/
def symbolTexts (a : Automaton) : List (List Char) :=
  if a.alphabet.isEmpty then [] else a.alphabet.symbols.map escape

/-- The lines of the description. -/
def descriptionLines (a : Automaton) : List (List Char) :=
  [declarationLine .states (a.states.toList.map a.nameText),
    declarationLine .alphabet a.symbolTexts,
    declarationLine .initial [a.nameText a.initial],
    declarationLine .accepting (a.finals.toList.map a.nameText)] ++
  a.transitions.entries.map fun e => a.rowLine e.1 e.2

/-- The description of the automaton. -/
def description (a : Automaton) : String :=
  String.ofList (a.descriptionLines.flatMap (· ++ ['\n']))

end Automaton

end FiniteAutomata
