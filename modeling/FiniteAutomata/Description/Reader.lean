import FiniteAutomata.Automaton.Basic
import FiniteAutomata.Description.Error
import FiniteAutomata.Text.Separator
import FiniteAutomata.Text.Words

/-!
# Reading descriptions

A description is read in three stages. The lines that are not blank once their comment is removed
are cut at their first colon and sorted into declarations and transitions (`Sheet`). The texts on
the sheet are parsed (`Document`). The automaton is built from the document, which cannot fail. The
first error in this order is reported.
-/
namespace FiniteAutomata

/-! ### Lines -/

/--
The text before the first `#` that starts a word; `wordStart` tells whether a word may start here.
-/
def stripCommentFrom (wordStart : Bool) : List Char → List Char
  | [] => []
  | c :: cs => if c = '#' ∧ wordStart then [] else c :: stripCommentFrom (isBlank c) cs

/-- The part of a line before its comment, which a `#` at the start of a word opens. -/
def stripComment (cs : List Char) : List Char := stripCommentFrom true cs

/-- What a line says: a text before its first colon that is not escaped, and one after it. -/
structure Line where
  number : Nat
  key : List Char
  value : List Char
  deriving DecidableEq, Repr

/-- The content of a line; `none` for a line that is blank once its comment is removed. -/
def Line.parse? (number : Nat) (raw : List Char) : Except DescriptionError (Option Line) :=
  match trim (stripComment raw) with
  | [] => .ok none
  | content =>
    match cutUnescaped? ':' content with
    | none => .error (.missingColon number)
    | some (key, value) => .ok (some ⟨number, trim key, trim value⟩)

/-- The lines of a description, sorted by what they declare. -/
structure Sheet where
  states : Option Line := none
  alphabet : Option Line := none
  initial : Option Line := none
  accepting : Option Line := none
  /-- The lines of transitions, in order. -/
  rows : List Line := []
  deriving DecidableEq, Repr

namespace Sheet

/-- The line that makes a declaration. -/
def line? (s : Sheet) : Keyword → Option Line
  | .states => s.states
  | .alphabet => s.alphabet
  | .initial => s.initial
  | .accepting => s.accepting

/-- Records the line that makes a declaration. -/
def declare (s : Sheet) (l : Line) : Keyword → Sheet
  | .states => { s with states := some l }
  | .alphabet => { s with alphabet := some l }
  | .initial => { s with initial := some l }
  | .accepting => { s with accepting := some l }

/-- Adds a line: a declaration, which may not be repeated, or the transitions of a state. -/
def add (s : Sheet) (l : Line) : Except DescriptionError Sheet :=
  match Keyword.ofText? l.key with
  | some k => if (s.line? k).isSome then .error (.duplicate l.number k) else .ok (s.declare l k)
  | none => .ok { s with rows := s.rows ++ [l] }

/-- Adds a numbered line of text. -/
def addText (s : Sheet) (raw : List Char × Nat) : Except DescriptionError Sheet := do
  match ← Line.parse? raw.2 raw.1 with
  | none => return s
  | some l => s.add l

/-- The sheet of a text. -/
def ofText (cs : List Char) : Except DescriptionError Sheet :=
  ((lines cs).zipIdx 1).foldlM addText {}

/-- The line that makes a required declaration. -/
def require (s : Sheet) (k : Keyword) : Except DescriptionError Line :=
  match s.line? k with
  | some l => .ok l
  | none => .error (.missing k)

end Sheet

/-! ### Documents -/

/-- What a description says. -/
structure Document where
  alphabet : List Char
  states : List String
  initial : String
  accepting : List String
  /-- For each line of transitions the source, and the labels and targets. -/
  rows : List (String × List (Label × String))
  deriving DecidableEq, Repr

/-- A symbol on a line. -/
def symbolOn (line : Nat) (cs : List Char) : Except DescriptionError Char :=
  match parseSymbol? cs with
  | some c => .ok c
  | none => .error (.invalidSymbol line cs)

/-- A name on a line. -/
def nameOn (line : Nat) (cs : List Char) : Except DescriptionError String :=
  match parseName? cs with
  | some n => .ok n
  | none => .error (.invalidName line cs)

/-- The names that a declaration lists. -/
def Line.names (l : Line) : Except DescriptionError (List String) :=
  (words l.value).mapM (nameOn l.number)

/-- The label that a word writes: `ε` and `eps` write the empty one. -/
def labelOn (line : Nat) (cs : List Char) : Except DescriptionError Label :=
  if cs = ['ε'] ∨ cs = ['e', 'p', 's'] then .ok none else some <$> symbolOn line cs

/-- The transition that an entry writes: a label and a target. -/
def entryOn (line : Nat) (entry : List Char) : Except DescriptionError (Label × String) :=
  match words entry with
  | [symbol, target] => do return (← labelOn line symbol, ← nameOn line target)
  | _ => .error (.invalidTransition line (trim entry))

/-- The source and the transitions that a line writes. An empty value writes none. -/
def Line.row (l : Line) : Except DescriptionError (String × List (Label × String)) := do
  let source ← nameOn l.number l.key
  let entries ← if l.value.isEmpty then pure [] else (splitEntries l.value).mapM (entryOn l.number)
  return (source, entries)

/-- Parses the texts on a sheet. -/
def Document.ofSheet (s : Sheet) : Except DescriptionError Document := do
  let statesLine ← s.require .states
  let alphabetLine ← s.require .alphabet
  let initialLine ← s.require .initial
  let alphabet ← (words alphabetLine.value).mapM (symbolOn alphabetLine.number)
  let states ← statesLine.names
  let initial ← match ← initialLine.names with
    | [name] => if name ∈ states then pure name
                else throw (.undeclaredInitial initialLine.number name)
    | _ => throw (.invalidInitial initialLine.number)
  let accepting ← match s.accepting with
    | some l => l.names
    | none => pure []
  let rows ← s.rows.mapM Line.row
  return { alphabet, states, initial, accepting, rows }

/-- What a text says. -/
def Document.ofText (text : String) : Except DescriptionError Document := do
  Document.ofSheet (← Sheet.ofText text.toList)

/-! ### Building the automaton -/

namespace Automaton

/-- Makes the state of a name final, without declaring it. -/
def addFinalName (a : Automaton) (name : String) : Automaton :=
  (a.intern name).addFinal (a.handle name)

/-- Adds a transition from a state to the state of a name. -/
def addEntry (source : Nat) (a : Automaton) (entry : Label × String) : Automaton :=
  (a.intern entry.2).addTransition source entry.1 (a.handle entry.2)

/-- Adds the transitions of a line. -/
def addRow (a : Automaton) (row : String × List (Label × String)) : Automaton :=
  row.2.foldl (addEntry (a.handle row.1)) (a.intern row.1)

end Automaton

/--
The automaton of a document: the initial state first, then the other declared states as listed. The
names that only the final states or the transitions mention are not declared.
-/
def Document.automaton (d : Document) : Automaton :=
  let declared := d.states.foldl Automaton.addState (.new (.ofSymbols d.alphabet) d.initial)
  d.rows.foldl Automaton.addRow (d.accepting.foldl Automaton.addFinalName declared)

/-- The automaton that a text describes. -/
def Automaton.ofDescription (text : String) : Except DescriptionError Automaton :=
  Document.automaton <$> Document.ofText text

end FiniteAutomata
