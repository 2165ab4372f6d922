import FiniteAutomata.Pattern.Bracket
import FiniteAutomata.Pattern.Count
import FiniteAutomata.Pattern.Group

/-!
# Reading the structure of a pattern

A pattern is a sequence of parts, or several alternatives of them between bars. A repetition applies
to the part before it. The parts of a group are read like a pattern, and the groups that are open
are kept in a list, the innermost one first.
-/
namespace FiniteAutomata.Pattern

/-! ### What is read of a group -/

/-- The alternatives that are read so far of a group or of the whole pattern. -/
structure Branches where
  /-- The place of the first alternative. -/
  start : Position
  /-- The alternatives before the last one, the latest first. -/
  before : List Node := []
  /-- The place of the last alternative. -/
  lastStart : Position
  /-- The parts of the last alternative, the latest first. -/
  items : List Node := []

/-- Nothing, at a place. -/
def Branches.startingAt (p : Position) : Branches := { start := p, lastStart := p }

/-- A group whose closing parenthesis is not read yet. -/
structure OpenGroup where
  /-- Its opening parenthesis. -/
  opening : Span
  captures : Bool
  settings : List FlagSetting
  /-- Whether blanks are ignored around the group. -/
  ignoresBlanks : Bool
  /-- What is before the group. -/
  outside : Branches

/-- The innermost branches that are being read, and the groups around them. -/
structure Reading where
  branches : Branches
  groups : List OpenGroup := []

/-- A sequence of parts as one node. -/
def Node.ofItems (span : Span) : List Node → Node
  | [] => .empty span
  | [item] => item
  | items => .concatenation span items

namespace Branches

/-- The last alternative, which ends at a place. -/
def last (b : Branches) (p : Position) : Node := Node.ofItems ⟨b.lastStart, p⟩ b.items.reverse

/-- All alternatives, of which the last one ends at a place. -/
def node (b : Branches) (p : Position) : Node :=
  match b.before with
  | [] => b.last p
  | before => .alternatives ⟨b.start, p⟩ (before.reverse ++ [b.last p])

/-- Adds a part at the end of the last alternative. -/
def push (b : Branches) (item : Node) : Branches := { b with items := item :: b.items }

/-- Ends the last alternative at a bar and starts another one after it. -/
def bar (b : Branches) (p : Position) : Branches :=
  { b with before := b.last p :: b.before, lastStart := p.past '|', items := [] }

end Branches

/-! ### Groups -/

/-- Opens a group, or sets flags for the rest of the innermost one. -/
def openGroup (r : Reading) : PatternReader Reading := do
  match ← readOpening with
  | .flags span settings =>
    if let some v := valueOf? .ignoreBlanks settings then
      modify fun c => { c with ignoresBlanks := v }
    return { r with branches := r.branches.push (.flags span settings) }
  | .group opening captures settings =>
    let ignoresBlanks := (← get).ignoresBlanks
    modify fun c =>
      { c with ignoresBlanks := (valueOf? .ignoreBlanks settings).getD c.ignoresBlanks }
    let group := ⟨opening, captures, settings, ignoresBlanks, r.branches⟩
    return ⟨.startingAt (← here), group :: r.groups⟩

/-- Closes the innermost group. -/
def closeGroup (r : Reading) : PatternReader Reading := do
  match r.groups with
  | [] => refuseNext .unopenedGroup ')'
  | g :: groups =>
    let content := r.branches.node (← here)
    modify fun c => { c with ignoresBlanks := g.ignoresBlanks }
    skip
    let span := ⟨g.opening.start, ← here⟩
    return ⟨g.outside.push (.group span g.captures g.settings content), groups⟩

/-! ### Repetitions -/

/-- Takes back the last part, to repeat it. -/
def takeOperand (b : Branches) : PatternReader (Node × Branches) :=
  match b.items with
  | [] | .empty _ :: _ | .flags _ _ :: _ => refuseHere .missingOperand
  | item :: items => return (item, { b with items })

/-- Repeats the last part as a count, which is read up to here, says. -/
def repeatPart (r : Reading) (operand : Node) (b : Branches) (count : Count) :
    PatternReader Reading := do
  let span := ⟨operand.span.start, ← here⟩
  let node := Node.repetition span count.least count.most count.isLazy operand
  return { r with branches := b.push node }

/-- Reads the sign of a repetition, which a question mark may follow. -/
def readRepetition (r : Reading) (count : Count) : PatternReader Reading := do
  let (operand, b) ← takeOperand r.branches
  skip
  let isLazy ← skipText "?"
  repeatPart r operand b { count with isLazy }

/-- Reads a counted repetition. -/
def readCountedRepetition (r : Reading) : PatternReader Reading := do
  let (operand, b) ← takeOperand r.branches
  let count ← readCount
  repeatPart r operand b count

/-! ### Parts -/

/-- Reads an atom that starts with `c`. -/
def readAtom (c : Char) : PatternReader Atom := do
  let span ← spanOf c
  match c with
  | '\\' => readEscape
  | '.' => skip; return .dot span
  | '^' => skip; return .assertion span .lineStart
  | '$' => skip; return .assertion span .lineEnd
  | c => skip; return .literal ⟨span, c, false⟩

/-- A class between brackets as a part of a pattern. -/
def Node.ofClass : ClassNode → Node
  | .bracket span negated content => .bracket span negated content
  | c => .bracket c.span false c

/-- Reads the next part, which starts with `c`. -/
def readPart (r : Reading) (c : Char) : PatternReader Reading := do
  match c with
  | '(' => openGroup r
  | ')' => closeGroup r
  | '|' =>
    let p ← here
    skip
    return { r with branches := r.branches.bar p }
  | '[' =>
    let node ← readBracket
    return { r with branches := r.branches.push (.ofClass node) }
  | '?' => readRepetition r { least := 0, most := some 1 }
  | '*' => readRepetition r { least := 0, most := none }
  | '+' => readRepetition r { least := 1, most := none }
  | '\x7b' => readCountedRepetition r
  | c =>
    let a ← readAtom c
    return { r with branches := r.branches.push (.atom a) }

/-- Ends the pattern. -/
def finishPattern (r : Reading) : PatternReader Node := do
  match r.groups with
  | [] => return r.branches.node (← here)
  | g :: _ => refuse .unclosedGroup g.opening

/-- Reads a whole pattern. -/
def readPattern : PatternReader Node :=
  readAll peekPastBlanks? (fun r c => do return .inl (← readPart r c)) finishPattern
    ⟨.startingAt {}, []⟩

/-- The structure of a pattern. -/
def Node.ofPattern (pattern : List Char) : Except FaultAt Node :=
  readPattern.run' { rest := pattern }

end FiniteAutomata.Pattern
