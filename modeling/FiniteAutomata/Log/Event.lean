import FiniteAutomata.Cache.Store
import FiniteAutomata.Log.Filter

/-!
# Log events

What a determinization reports while it runs, and the lines that show it.
-/
namespace FiniteAutomata

/-- A step of a determinization or of its cache that is worth a report. -/
inductive Event where
  | alreadyDeterministic
  | determinizing (states transitions : Nat)
  | newComposite (name : String)
  | determinized (states transitions : Nat)
  | cacheUsed (fingerprint : Digest) (path : Path)
  | cacheNotLoaded (error : CacheError)
  | cacheSaved (fingerprint : Digest) (path : Path)
  | cacheNotSaved (error : FileError)

namespace Event

/-- The severity of the event. -/
def level : Event → Level
  | newComposite _ => .trace
  | cacheNotLoaded _ | cacheNotSaved _ => .warn
  | _ => .debug

/-- The name under which the event is reported. -/
def target : Event → String
  | alreadyDeterministic | determinizing .. | newComposite _ | determinized .. =>
    "regular_automaton::determinize"
  | _ => "regular_automaton::cache"

/-- The message of the event. -/
def message : Event → String
  | alreadyDeterministic => "automaton is already deterministic"
  | determinizing n m => s!"determinizing automaton with {n} states and {m} transitions"
  | newComposite name => s!"new composite state `{name}`"
  | determinized n m => s!"determinized automaton has {n} states and {m} transitions"
  | cacheUsed d p => "using cached automaton " ++ d.text ++ " from " ++ p.text
  | cacheNotLoaded e => "could not load cached automaton: " ++ e.message
  | cacheSaved d p => "cached automaton " ++ d.text ++ " in " ++ p.text
  | cacheNotSaved e => "unable to cache determinized automaton: " ++ e.message

end Event

/-- A text whose lines after the first one are indented by four spaces. -/
def indentLines (text : String) : String :=
  String.ofList (text.toList.flatMap fun c => if c = '\n' then ['\n', ' ', ' ', ' ', ' '] else [c])

namespace Event

/-- The line that shows the event. -/
def line (e : Event) : String :=
  "[" ++ e.level.paddedText ++ " " ++ e.target ++ "] " ++ indentLines e.message ++ "\n"

/-- The lines of the events that pass a filter. -/
def shown (f : LogFilter) (events : List Event) : String :=
  String.join ((events.filter fun e => f.admits e.target e.level e.message).map line)

end Event

end FiniteAutomata
