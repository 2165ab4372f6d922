import FiniteAutomata.Pattern.Node

/-!
# Places of a text

Places of a text are told apart by the symbols on their two sides. An expression may require of a
place that it is the start or the end of the text, of a line or of a word.
-/
namespace FiniteAutomata.Pattern

/-- A place of a text: the symbols before and after it. -/
structure Place where
  before : Option Char
  after : Option Char
  deriving DecidableEq, Repr

/-- The places of a text, in order, when a symbol precedes it or none. -/
def placesAfter (before : Option Char) : List Char → List Place
  | [] => [⟨before, none⟩]
  | c :: cs => ⟨before, some c⟩ :: placesAfter (some c) cs

/-- The places of a text, in order. -/
def places (text : List Char) : List Place := placesAfter none text

theorem length_placesAfter (before : Option Char) (text : List Char) :
    (placesAfter before text).length = text.length + 1 := by
  induction text generalizing before with
  | nil => rfl
  | cons c cs ih => simp [placesAfter, ih]

/-- Whether a symbol is part of a word: an ASCII letter, a digit or an underscore. -/
def isWordSymbol (c : Option Char) : Bool := c.any fun c => c.isAlphanum || c == '_'

/-- Whether the words before and after a place are as asserted. -/
def WordPlace.holds (w : WordPlace) (before after : Bool) : Bool :=
  match w with
  | boundary => before != after
  | noBoundary => before == after
  | start => !before && after
  | stop => before && !after
  | startHalf => !before
  | stopHalf => !after

/-- What an expression requires of a place. -/
inductive Look where
  | textStart
  | textEnd
  | lineStart
  | lineEnd
  /-- The start of a line where carriage returns are line ends too. -/
  | lineStartAfterReturn
  /-- The end of a line where carriage returns are line ends too. -/
  | lineEndBeforeReturn
  /-- Words made of ASCII symbols, or of all of Unicode. -/
  | word (w : WordPlace) (unicode : Bool)
  deriving DecidableEq, Repr

/--
Whether a place is as required. A carriage return and a line feed after it are one line end. Words
of all of Unicode are told apart by their ASCII symbols only.
-/
def Look.holds (l : Look) (p : Place) : Bool :=
  match l with
  | textStart => p.before.isNone
  | textEnd => p.after.isNone
  | lineStart => p.before.isNone || p.before == some '\n'
  | lineEnd => p.after.isNone || p.after == some '\n'
  | lineStartAfterReturn =>
    p.before.isNone || p.before == some '\n' ||
      (p.before == some '\r' && p.after != some '\n')
  | lineEndBeforeReturn =>
    p.after.isNone || p.after == some '\r' ||
      (p.after == some '\n' && p.before != some '\r')
  | word w _ => w.holds (isWordSymbol p.before) (isWordSymbol p.after)

end FiniteAutomata.Pattern
