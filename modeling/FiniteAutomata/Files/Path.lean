import FiniteAutomata.Text.Words

/-!
# Paths

A path is a text that is cut into components at its slashes. It is followed component by component,
from the top of all files when it starts with a slash, and from the working directory otherwise, so
that the path without components is that directory. A place is known by the components that lead to
it; what lies above the working directory is only known to exist.
-/
namespace FiniteAutomata

/-- A path, as it is written. -/
structure Path where
  text : String
  deriving DecidableEq, Repr, Inhabited

/--
A place among the files, by the components that lead to it: from the top of all files when the first
one is a slash, from the directories above the working directory when the first ones are two dots.
-/
abbrev Place := List String

namespace Place

/-- Whether the place is the working directory, one above it, or the top of all files. -/
def isBase (l : Place) : Bool := l.all fun c => c == ".." || c == "/"

/-- The directory that holds a place. -/
def up (l : Place) : Place :=
  match l.getLast? with
  | none => [".."]
  | some c => if c == ".." then l ++ [".."] else if c == "/" then l else l.dropLast

/-- The place that a component leads to from a directory. -/
def enter (l : Place) (component : String) : Place :=
  if component == "." then l else if component == ".." then l.up else l ++ [component]

end Place

namespace Path

/-- The components of the path. -/
def components (p : Path) : List String :=
  ((pieces '/' p.text.toList).filter (!·.isEmpty)).map String.ofList

/-- Where the path starts. -/
def base (p : Path) : Place := if p.text.toList.head? = some '/' then ["/"] else []

/-- Whether the path ends in a slash, so that it can only name a directory. -/
def endsInSlash (p : Path) : Bool := p.text.toList.getLast? == some '/'

/-- The components of the directory that holds what the path names. -/
def parent (p : Path) : List String := (p.components.filter (· != ".")).dropLast

end Path

end FiniteAutomata
