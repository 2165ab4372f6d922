import FiniteAutomata.Text.Words

/-!
# Levels

The severity of a log event. A filter lets pass the events up to some level, from the most severe
one on, or none of them.
-/
namespace FiniteAutomata

/-- The severity of a log event, in descending order. -/
inductive Level where
  | error
  | warn
  | info
  | debug
  | trace
  deriving DecidableEq, Repr

namespace Level

/-- The spelling of a level. -/
def text : Level → String
  | error => "ERROR"
  | warn => "WARN"
  | info => "INFO"
  | debug => "DEBUG"
  | trace => "TRACE"

/-- The position of a level among the levels, the most severe being first. -/
def rank : Level → Nat
  | error => 1
  | warn => 2
  | info => 3
  | debug => 4
  | trace => 5

/-- All levels. -/
def all : List Level := [error, warn, info, debug, trace]

/-- The spelling of a level, at least five characters long. -/
def paddedText (l : Level) : String :=
  l.text ++ String.ofList (List.replicate (5 - l.text.length) ' ')

end Level

/-- How much passes: the events up to a level, or none. -/
abbrev Verbosity := Option Level

namespace Verbosity

/-- Whether an event of a level passes. -/
def admits (v : Verbosity) (l : Level) : Bool :=
  match v with
  | none => false
  | some m => l.rank ≤ m.rank

/-- The verbosity that a text spells, in any case: a level, or `off`. -/
def ofText? (cs : List Char) : Option Verbosity :=
  let spelling := String.ofList (cs.map Char.toUpper)
  if spelling == "OFF" then some none
  else (Level.all.find? (·.text == spelling)).map some

end Verbosity

end FiniteAutomata
