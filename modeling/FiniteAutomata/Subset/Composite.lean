import FiniteAutomata.Automaton.Acceptance
import FiniteAutomata.Naming

/-!
# Composite states

A composite state stands for a set of states of an automaton. Its transitions are those of its
members, merged by symbol: the destinations of all members are united. Its name is made of the names
of its members, in the order of their handles.
-/
namespace FiniteAutomata

namespace Automaton

/-- The displayed names of the members of a set, in the order of their handles. -/
def memberNames (a : Automaton) (s : StateSet) : List String := s.toList.map a.display

/-- The names of the members, one after the other. -/
def joinedName (a : Automaton) (s : StateSet) : String := String.join (a.memberNames s)

/-- The names of the members between braces, separated by commas. -/
def bracedName (a : Automaton) (s : StateSet) : String :=
  "\x7b" ++ ",".intercalate (a.memberNames s) ++ "\x7d"

/--
The name of a new composite state: the joined names of its members, or the braced names with quote
marks when that is taken.
-/
def compositeName (a : Automaton) (taken : List String) (s : StateSet) : String :=
  let name := a.joinedName s
  if name ∈ taken then unusedName taken (a.bracedName s) else name

/-- Unites the destinations on a label with those already merged for its symbol. -/
def mergeEntry (merged : Table Char StateSet) (entry : Label × StateSet) : Table Char StateSet :=
  match entry.1 with
  | none => merged
  | some c => merged.upsert c ∅ (· ∪ entry.2)

/-- Merges the transitions of a state with those already merged. -/
def mergeRow (a : Automaton) (merged : Table Char StateSet) (q : Nat) : Table Char StateSet :=
  match a.row? q with
  | none => merged
  | some row => row.entries.foldl mergeEntry merged

/-- The transitions of the members of a set, merged by symbol. -/
def merged (a : Automaton) (s : StateSet) : Table Char StateSet := s.toList.foldl a.mergeRow ∅

end Automaton

end FiniteAutomata
