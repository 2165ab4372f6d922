import FiniteAutomata.Log.Level
import FiniteAutomata.Pattern.Search

/-!
# Log filters

A filter is specified by directives between commas, each setting the verbosity of the targets whose
names start with a given text, or of all targets. The directive with the longest name that fits a
target decides. Of two directives on the same targets, the later one counts. After a slash, the
specification may give a pattern that is searched for in every message. Parts that cannot be
understood are reported and ignored.
-/
namespace FiniteAutomata

/-- The verbosity of the targets whose names start with `target`, or of all targets. -/
structure Directive where
  target : Option (List Char)
  verbosity : Verbosity
  deriving DecidableEq, Repr

/-- What a specification of a filter says. -/
structure LogFilter where
  directives : List Directive
  /-- The expression that must be found in every message. -/
  content : Option Pattern.Expression := none
  /-- The reports on what was ignored. -/
  warnings : List String := []

namespace Directive

/-- Whether the directive decides on a target. -/
def fits (d : Directive) (target : List Char) : Bool :=
  match d.target with
  | none => true
  | some name => name.isPrefixOf target

/-- The length of the name of the targets. -/
def nameLength (d : Directive) : Nat := (d.target.getD []).length

/-- The more specific of two directives, the second one if neither is. -/
def moreSpecific (best : Option Directive) (d : Directive) : Option Directive :=
  match best with
  | none => some d
  | some b => if b.nameLength ≤ d.nameLength then some d else some b

/--
The directive that a text between commas writes; the error is the part that is not understood.
-/
def parse (cs : List Char) : Except (List Char) Directive :=
  match pieces '=' cs with
  | [name] =>
    match Verbosity.ofText? name with
    | some v => .ok ⟨none, v⟩
    | none => .ok ⟨some name, some .trace⟩
  | [name, value] =>
    let value := trim value
    if value.isEmpty then .ok ⟨some name, some .trace⟩
    else
      match Verbosity.ofText? value with
      | some v => .ok ⟨some name, v⟩
      | none => .error value
  | _ => .error cs

end Directive

/-- Adds a directive, at the place of an earlier one on the same targets. -/
def Directive.insertIn (d : Directive) : List Directive → List Directive
  | [] => [d]
  | e :: es => if e.target = d.target then d :: es else e :: d.insertIn es

namespace LogFilter

/-- The report on a part of a specification that is ignored. -/
def warning (part : List Char) (reason : String) : String :=
  "warning: invalid logging spec '" ++ String.ofList part ++ "', ignoring it" ++ reason

/-- Adds what a text between commas writes. -/
def add (f : LogFilter) (cs : List Char) : LogFilter :=
  let cs := trim cs
  if cs.isEmpty then f
  else
    match Directive.parse cs with
    | .ok d => { f with directives := d.insertIn f.directives }
    | .error part => { f with warnings := f.warnings ++ [warning part ""] }

/-- The filter of the directives between the commas of a text. -/
def ofDirectives (cs : List Char) : LogFilter := (pieces ',' cs).foldl add ⟨[], none, []⟩

/-- Adds the pattern that is searched for in the messages. -/
def search (f : LogFilter) (pattern : List Char) : LogFilter :=
  match Pattern.Expression.ofPattern pattern with
  | .ok e => { f with content := some e }
  | .error e =>
    { f with warnings := f.warnings ++ ["warning: invalid regex filter - " ++ e.message] }

/-- The filter that a specification writes. -/
def ofText (specification : String) : LogFilter :=
  let cs := specification.toList
  match pieces '/' cs with
  | [directives] => ofDirectives directives
  | [directives, pattern] => (ofDirectives directives).search pattern
  | _ => ⟨[], none, [warning cs " (too many '/'s)"]⟩

/-- The verbosity of a target: errors alone when there are no directives at all. -/
def verbosity (f : LogFilter) (target : String) : Verbosity :=
  if f.directives.isEmpty then some .error
  else
    match (f.directives.filter (·.fits target.toList)).foldl Directive.moreSpecific none with
    | some d => d.verbosity
    | none => none

/-- Whether an event passes. -/
def admits (f : LogFilter) (target : String) (level : Level) (message : String) : Bool :=
  (f.verbosity target).admits level &&
    match f.content with
    | none => true
    | some e => e.isFoundIn message.toList

end LogFilter

end FiniteAutomata
