import FiniteAutomata.Pattern.Escape

/-!
# Classes of symbols between brackets

A class lists symbols, ranges of symbols and other classes, which may be nested in brackets of their
own. Two lists may be combined by an operation; several operations are done from left to right.
Within brackets, some classes of ASCII symbols may be given by their names.
-/
namespace FiniteAutomata.Pattern

/-! ### What is read of a class -/

/-- A list of parts of a class, the last one first, and the part of the pattern that it takes. -/
structure ClassItems where
  span : Span
  items : List ClassNode := []

/-- Adds a part at the end of the list. -/
def ClassItems.push (u : ClassItems) (item : ClassNode) : ClassItems :=
  ⟨⟨if u.items.isEmpty then item.span.start else u.span.start, item.span.stop⟩, item :: u.items⟩

/-- The class of all parts of the list. -/
def ClassItems.node (u : ClassItems) : ClassNode :=
  match u.items with
  | [] => .empty u.span
  | [item] => item
  | items => .union u.span items.reverse

/-- A class whose closing bracket is not read yet. -/
structure OpenBracket where
  /-- The part of the pattern that opens the class. -/
  opening : Span
  negated : Bool
  /-- An operation and what is on the left of it. -/
  pending : Option (ClassOperator × ClassNode) := none
  items : ClassItems

namespace OpenBracket

/-- Everything that is read of the class. -/
def content (b : OpenBracket) : ClassNode :=
  let right := b.items.node
  match b.pending with
  | none => right
  | some (k, left) => .operation ⟨left.span.start, right.span.stop⟩ k left right

/-- Adds a part of the class. -/
def push (b : OpenBracket) (item : ClassNode) : OpenBracket := { b with items := b.items.push item }

/-- Goes on with the right-hand side of an operation, which starts at a place. -/
def operate (b : OpenBracket) (k : ClassOperator) (p : Position) : OpenBracket :=
  { b with pending := some (k, b.content), items := ⟨.point p, []⟩ }

/-- The class, closed by a bracket before a place. -/
def close (b : OpenBracket) (p : Position) : ClassNode :=
  .bracket ⟨b.opening.start, p⟩ b.negated b.content

end OpenBracket

/-! ### Named classes -/

/-- The class of ASCII symbols with a name. -/
def AsciiClass.ofName? (name : List Char) : Option AsciiClass :=
  match String.ofList name with
  | "alnum" => some .alnum
  | "alpha" => some .alpha
  | "ascii" => some .ascii
  | "blank" => some .blank
  | "cntrl" => some .cntrl
  | "digit" => some .digit
  | "graph" => some .graph
  | "lower" => some .lower
  | "print" => some .print
  | "punct" => some .punct
  | "space" => some .space
  | "upper" => some .upper
  | "word" => some .word
  | "xdigit" => some .xdigit
  | _ => none

/-- The named class that a text starts with, whether it is the complement, and its length. -/
def asciiClassAt? (cs : List Char) : Option (AsciiClass × Bool × Nat) :=
  match cs with
  | '[' :: ':' :: cs =>
    let negated := cs.head? == some '^'
    let cs := if negated then cs.drop 1 else cs
    let name := cs.takeWhile (· != ':')
    match cs.dropWhile (· != ':') with
    | ':' :: ']' :: _ =>
      (AsciiClass.ofName? name).map fun k =>
        (k, negated, name.length + if negated then 5 else 4)
    | _ => none
  | _ => none

/-- Reads a named class, if there is one. -/
def readAsciiClass? : PatternReader (Option ClassNode) := do
  let c ← get
  match asciiClassAt? c.rest with
  | none => return none
  | some (k, negated, length) =>
    let start ← here
    set (c.advanceBy length)
    return some (.ascii ⟨start, ← here⟩ k negated)

/-! ### Symbols and ranges -/

/-- Reads an escape, or a symbol that stands for itself, which is `c`. -/
def readClassAtom (c : Char) : PatternReader Atom := do
  if c = '\\' then readEscape
  else
    let span ← spanOf c
    skip
    return .literal ⟨span, c, false⟩

/-- The part of the pattern that an atom is, as a part of a class. -/
def Atom.toClass : Atom → PatternReader ClassNode
  | literal l => return .literal l
  | short span k negated => return .short span k negated
  | property span name => return .property span name
  | dot span | assertion span _ => refuse .escapeInClass span

/-- An atom as an end of a range. -/
def Atom.toRangeEnd : Atom → PatternReader Literal
  | literal l => return l
  | a => refuse .rangeEnd a.span

/-- Whether a hyphen that is next stands between the ends of a range. -/
def isRangeNext : PatternReader Bool := do
  let c ← get
  let second := c.second?
  return c.rest.head? == some '-' && second != some ']' && second != some '-'

/-- Reads a symbol, a range or an escape that starts with `c`, in a class with a given opening. -/
def readClassItem (opening : Span) (c : Char) : PatternReader ClassNode := do
  let first ← readClassAtom c
  if (← peekPastBlanks?).isNone then refuse .unclosedClass opening
  if ← isRangeNext then
    unless ← skipWithBlanks do refuse .unclosedClass opening
    match ← peek? with
    | none => refuse .unclosedClass opening
    | some d =>
      let last ← readClassAtom d
      let span := ⟨first.span.start, last.span.stop⟩
      let first ← first.toRangeEnd
      let last ← last.toRangeEnd
      if last.symbol < first.symbol then refuse .reversedRange span
      return .range span first last
  else first.toClass

/-! ### Brackets -/

/-- The literal that the next character is, which is `c`. -/
def literalNext (c : Char) : PatternReader ClassNode := do
  return .literal ⟨← spanOf c, c, false⟩

/-- Reads the hyphens at the start of a class, which stand for themselves. -/
def readHyphens (start : Position) (items : ClassItems) : PatternReader ClassItems :=
  readAll peek?
    (fun items c => do
      if c = '-' then
        let item ← literalNext c
        unless ← skipWithBlanks do refuse .unclosedClass (.point start)
        return .inl (items.push item)
      else return .inr items)
    (fun items => return items) items

/-- Reads what opens a class, at its bracket: a closing bracket at the start stands for itself. -/
def readBracketOpening : PatternReader OpenBracket := do
  let start ← here
  unless ← skipWithBlanks do refuseFrom .unclosedClass start
  let negated ← nextIs '^'
  if negated then
    unless ← skipWithBlanks do refuseFrom .unclosedClass start
  let items ← readHyphens start ⟨.point (← here), []⟩
  if items.items.isEmpty && (← nextIs ']') then
    let item ← literalNext ']'
    unless ← skipWithBlanks do refuseFrom .unclosedClass start
    return { opening := ⟨start, ← here⟩, negated, items := items.push item }
  return { opening := ⟨start, ← here⟩, negated, items }

/-- The operation whose sign is next, if there is one. -/
def operatorAt? : List Char → Option ClassOperator
  | '&' :: '&' :: _ => some .intersection
  | '-' :: '-' :: _ => some .difference
  | '~' :: '~' :: _ => some .symmetricDifference
  | _ => none

/-- Closes the innermost class: the result is the outermost one, or a part of the one around it. -/
def closeBracket (b : OpenBracket) (around : List OpenBracket) :
    PatternReader ((OpenBracket × List OpenBracket) ⊕ ClassNode) := do
  skip
  let node := b.close (← here)
  match around with
  | [] => return .inr node
  | outer :: around => return .inl (outer.push node, around)

/-- Reads the next part of a class: the innermost one, with the classes around it. -/
def readBracketStep (s : OpenBracket × List OpenBracket) (c : Char) :
    PatternReader ((OpenBracket × List OpenBracket) ⊕ ClassNode) := do
  let (b, around) := s
  match c with
  | '[' =>
    match ← readAsciiClass? with
    | some node => return .inl (b.push node, around)
    | none => return .inl (← readBracketOpening, b :: around)
  | ']' => closeBracket b around
  | c =>
    match operatorAt? (← get).rest with
    | some k =>
      skip
      skip
      return .inl (b.operate k (← here), around)
    | none => return .inl (b.push (← readClassItem b.opening c), around)

/-- Reads a class, at its bracket. -/
def readBracket : PatternReader ClassNode := do
  let b ← readBracketOpening
  readAll peekPastBlanks? readBracketStep (fun s => refuse .unclosedClass s.1.opening) (b, [])

end FiniteAutomata.Pattern
