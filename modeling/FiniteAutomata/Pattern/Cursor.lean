import FiniteAutomata.Pattern.Fault
import FiniteAutomata.Text.Blank

/-!
# Reading patterns

A pattern is read from left to right. Between its parts, blanks and comments may be ignored; whether
they are changes within the pattern. Main statement: a cursor that is moved on has a character less
before it (`Cursor.length_advance`).
-/
namespace FiniteAutomata.Pattern

/-- What is left of a pattern, and what is known from before. -/
structure Cursor where
  rest : List Char
  position : Position := {}
  /-- Whether blanks and comments between the parts of the pattern are ignored. -/
  ignoresBlanks : Bool := false
  /-- The names of the groups so far. -/
  names : List (List Char × Span) := []

/-- A reader of a part of a pattern. -/
abbrev PatternReader := StateT Cursor (Except FaultAt)

namespace Cursor

/-- Moves on by a character. -/
def advance (c : Cursor) : Cursor :=
  match c.rest with
  | [] => c
  | x :: xs => { c with rest := xs, position := c.position.past x }

/-- Moves on by some characters. -/
def advanceBy : Nat → Cursor → Cursor
  | 0, c => c
  | n + 1, c => advanceBy n c.advance

theorem length_advance (c : Cursor) : c.advance.rest.length = c.rest.length - 1 := by
  unfold advance; split <;> simp_all

/-- What is left after blanks and comments, and its place. -/
def pastBlanks (inComment : Bool) (p : Position) : List Char → List Char × Position
  | [] => ([], p)
  | c :: cs =>
    if inComment then pastBlanks (c != '\n') (p.past c) cs
    else if isBlank c then pastBlanks false (p.past c) cs
    else if c = '#' then pastBlanks true (p.past c) cs
    else (c :: cs, p)

/-- Moves on past blanks and comments, if they are ignored. -/
def advanceBlanks (c : Cursor) : Cursor :=
  if c.ignoresBlanks then
    let (rest, position) := pastBlanks false c.position c.rest
    { c with rest, position }
  else c

/--
The character after the next one, past blanks if they are ignored. Of a comment, only its sign and
the blanks after it are passed over.
-/
def second? (c : Cursor) : Option Char :=
  let after := c.rest.drop 1
  if c.ignoresBlanks then
    let past := after.dropWhile isBlank
    let past := if past.head? = some '#' then (past.drop 1).dropWhile isBlank else past
    past.head? <|> after.head?
  else after.head?

end Cursor

/-! ### Readers -/

/-- Fails with a fault of a part of the pattern. -/
def refuse {α : Type} (fault : Fault) (span : Span) : PatternReader α := throw ⟨fault, span, none⟩

/-- The place that is reached. -/
def here : PatternReader Position := return (← get).position

/-- The next character. -/
def peek? : PatternReader (Option Char) := return (← get).rest.head?

/-- Whether the next character is a given one. -/
def nextIs (c : Char) : PatternReader Bool := return (← peek?) == some c

/-- Moves on by a character. -/
def skip : PatternReader Unit := modify Cursor.advance

/-- Moves on past blanks and comments, if they are ignored. -/
def skipBlanks : PatternReader Unit := modify Cursor.advanceBlanks

/-- The next character, past blanks and comments if they are ignored. -/
def peekPastBlanks? : PatternReader (Option Char) := do
  skipBlanks
  peek?

/-- Moves on by a character, and past blanks; tells whether something is left. -/
def skipWithBlanks : PatternReader Bool := do
  skip
  return (← peekPastBlanks?).isSome

/-- Moves on past a text, if it is next; tells whether it is. -/
def skipText (text : String) : PatternReader Bool := do
  let c ← get
  if text.toList.isPrefixOf c.rest then
    set (c.advanceBy text.length)
    return true
  else return false

/-- Fails with a fault at the place that is reached. -/
def refuseHere {α : Type} (fault : Fault) : PatternReader α := do refuse fault (.point (← here))

/-- Fails with a fault of everything from a place on. -/
def refuseFrom {α : Type} (fault : Fault) (start : Position) : PatternReader α := do
  refuse fault ⟨start, ← here⟩

/-- The part that the next character is, if it is `c`. -/
def spanOf (c : Char) : PatternReader Span := do
  let p ← here
  return ⟨p, p.past c⟩

/-- Fails with a fault of the next character, which is `c`. -/
def refuseNext {α : Type} (fault : Fault) (c : Char) : PatternReader α := do
  refuse fault (← spanOf c)

/-! ### Repeated steps -/

/--
Repeats a step on the next character until it gives a result. At the end of the pattern, or after
`n` steps, `finish` gives the result.
-/
def readSteps {σ α : Type} (next? : PatternReader (Option Char))
    (step : σ → Char → PatternReader (σ ⊕ α)) (finish : σ → PatternReader α) :
    Nat → σ → PatternReader α
  | 0, s => finish s
  | n + 1, s => do
    match ← next? with
    | none => finish s
    | some c =>
      match ← step s c with
      | .inl s => readSteps next? step finish n s
      | .inr a => return a

/-- Repeats a step that moves on by one character or more until it gives a result. -/
def readAll {σ α : Type} (next? : PatternReader (Option Char))
    (step : σ → Char → PatternReader (σ ⊕ α)) (finish : σ → PatternReader α) (s : σ) :
    PatternReader α := do
  readSteps next? step finish (← get).rest.length s

/-- Moves on past the characters of a kind, and past what `skipOne` skips with each of them. -/
def skipWhile (kind : Char → Bool) (skipOne : PatternReader Unit) : PatternReader (List Char) :=
  readAll peek?
    (fun read c => do
      if kind c then
        skipOne
        return .inl (c :: read)
      else return .inr read.reverse)
    (fun read => return read.reverse) []

end FiniteAutomata.Pattern
