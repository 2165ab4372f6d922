/-!
# Places in a pattern

A place between the characters of a pattern is given by its line and its column, both counted from
one. A span reaches from one place to a later one.
-/
namespace FiniteAutomata.Pattern

/-- A place between two characters. -/
structure Position where
  line : Nat := 1
  column : Nat := 1
  deriving DecidableEq, Repr, Inhabited

/-- The place after a character. -/
def Position.past (p : Position) (c : Char) : Position :=
  if c = '\n' then ⟨p.line + 1, 1⟩ else ⟨p.line, p.column + 1⟩

/-- Whether a place comes before another one. -/
def Position.isBefore (p q : Position) : Bool :=
  p.line < q.line || (p.line == q.line && p.column < q.column)

/-- A part of a pattern. -/
structure Span where
  start : Position
  stop : Position
  deriving DecidableEq, Repr, Inhabited

namespace Span

/-- The empty part at a place. -/
def point (p : Position) : Span := ⟨p, p⟩

/-- Whether the part starts and ends on the same line. -/
def isOnOneLine (s : Span) : Bool := s.start.line == s.stop.line

/-- Two parts, the one that starts first in front. -/
def inOrder (s t : Span) : List Span := if t.start.isBefore s.start then [t, s] else [s, t]

end Span

theorem Position.isBefore_past (p : Position) (c : Char) : p.isBefore (p.past c) = true := by
  unfold isBefore past; split <;> simp

end FiniteAutomata.Pattern
