import FiniteAutomata.Pattern.ByteRange
import FiniteAutomata.Pattern.Expression

/-!
# The footprint of expressions

An expression is run by a machine that reads a text byte by byte, and by another one that reads it
backward. Their states are counted in the order in which they are made, because states that read the
bytes of symbols are shared, and how far depends on their numbers. Expressions whose machines take
too much are refused.
-/
namespace FiniteAutomata.Pattern

/-- How a machine reads a text. -/
inductive Direction where
  | forward
  | backward
  deriving DecidableEq, Repr

/-- The size of a machine. -/
structure Footprint where
  /-- The number of states, which is the number of the next one. -/
  states : Nat := 0
  /-- What the states take besides their own size: their ways to several others. -/
  ways : Nat := 0
  deriving DecidableEq, Repr

/-- The most bytes that a machine may take. -/
def maxFootprint : Nat := 10485760

namespace Footprint

/-- The size of the machine in bytes. -/
def bytes (f : Footprint) : Nat := 32 * f.states + f.ways

/-- Whether the machine takes too much. -/
def isTooLarge (f : Footprint) : Bool := maxFootprint < f.bytes

/-- Adds `n` states that go on to one state each. -/
def addStates (n : Nat) (f : Footprint) : Footprint := { f with states := f.states + n }

/-- Adds a state that goes on to one of `n` others without reading. -/
def addFork (n : Nat) (f : Footprint) : Footprint := ⟨f.states + 1, f.ways + 4 * n⟩

/-- Adds a state that reads a byte of one of `n` ranges. -/
def addReader (n : Nat) (f : Footprint) : Footprint := ⟨f.states + 1, f.ways + 8 * n⟩

/-- Adds what a step adds, `n` times, or until the machine takes too much. -/
def addTimes (add : Footprint → Footprint) : Nat → Footprint → Footprint
  | 0, f => f
  | n + 1, f => if f.isTooLarge then f else addTimes add n (add f)

/-- Adds what a step adds for each of some values. -/
def addEach {α : Type} (add : α → Footprint → Footprint) (xs : List α) (f : Footprint) :
    Footprint := xs.foldl (fun f x => add x f) f

end Footprint

/-! ### Shared states -/

/-- A byte range that leads to a state. -/
structure ByteWay where
  range : ByteRange
  target : Nat
  deriving DecidableEq, Repr

/-- Mixes a number into a 64-bit hash. -/
def mixHash (h : UInt64) (n : Nat) : UInt64 := (h ^^^ UInt64.ofNat n) * 1099511628211

/-- The hash of no numbers. -/
def emptyHash : UInt64 := 14695981039346656037

/--
States that were made, by what they do, the latest first. There is a place for each hash value below
some number, at which only the latest state is found.
-/
abbrev SharedStates := List (Nat × List ByteWay × Nat)

/-- The place, of so many, that the hash of some numbers gives. -/
def placeOf (places : Nat) (numbers : List Nat) : Nat :=
  (numbers.foldl mixHash emptyHash).toNat % places

/-- The state that was made for some ways, if it is still found. -/
def SharedStates.find? (shared : SharedStates) (place : Nat) (ways : List ByteWay) : Option Nat :=
  match List.find? (fun e => e.1 == place) shared with
  | some (_, found, state) => if found = ways then some state else none
  | none => none

/-! ### Symbols, reading forward -/

/-- A machine with the states that were made for the symbols of a set. -/
structure SymbolReader where
  footprint : Footprint
  shared : SharedStates := []

/-- The numbers that are mixed into the hash of a state that reads a byte. -/
def readerNumbers (ways : List ByteWay) : List Nat :=
  ways.flatMap fun w => [w.range.first.toNat, w.range.last.toNat, w.target]

/-- The state that reads a byte and goes some ways. -/
def SymbolReader.stateFor (r : SymbolReader) (ways : List ByteWay) : SymbolReader × Nat :=
  let place := placeOf 10000 (readerNumbers ways)
  match r.shared.find? place ways with
  | some state => (r, state)
  | none =>
    let state := r.footprint.states
    (⟨r.footprint.addReader ways.length, (place, ways, state) :: r.shared⟩, state)

/-- Byte sequences that start with the same range, and what follows it in each of them. -/
def startGroups (sequences : List (List ByteRange)) : List (ByteRange × List (List ByteRange)) :=
  (sequences.splitBy fun s t => s.head? == t.head?).filterMap fun group =>
    match group with
    | (b :: _) :: _ => some (b, group.map (·.drop 1))
    | _ => none

/--
The state that reads one of some byte sequences of at most `n` bytes and then goes to the target,
after the states that it leads to.
-/
def SymbolReader.stateForAll (target : Nat) :
    Nat → SymbolReader → List (List ByteRange) → SymbolReader × Nat
  | 0, r, _ => (r, target)
  | n + 1, r, sequences =>
    if sequences.all (·.isEmpty) then (r, target)
    else
      let (r, ways) := (startGroups sequences).foldl
        (fun (r, ways) group =>
          let (r, state) := SymbolReader.stateForAll target n r group.2
          (r, ways ++ [⟨group.1, state⟩])) (r, [])
      r.stateFor ways

/-- Adds the states that read a symbol of a set forward. -/
def Footprint.addForwardSymbols (s : SymbolSet) (f : Footprint) : Footprint :=
  let target := f.states
  let (r, _) := SymbolReader.stateForAll target 5 ⟨f.addStates 1, []⟩ s.byteSequences
  r.footprint

/-! ### Symbols, reading backward -/

/-- The state that reads a byte of a range before it goes to a state. -/
def SymbolReader.stateBefore (r : SymbolReader) (target : Nat) (b : ByteRange) :
    SymbolReader × Nat :=
  let place := placeOf 1000 [target, b.first.toNat, b.last.toNat]
  match r.shared.find? place [⟨b, target⟩] with
  | some state => (r, state)
  | none =>
    let state := r.footprint.states
    (⟨r.footprint.addStates 1, (place, [⟨b, target⟩], state) :: r.shared⟩, state)

/-- Adds the states that read a symbol of a set backward. -/
def Footprint.addBackwardSymbols (s : SymbolSet) (f : Footprint) : Footprint :=
  let sequences := s.byteSequences
  let target := f.states + 1
  let start : SymbolReader := ⟨(f.addFork sequences.length).addStates 1, []⟩
  (sequences.foldl
    (fun r bytes => (bytes.foldl (fun (r, state) b => r.stateBefore state b) (r, target)).1)
    start).footprint

/-- Adds the states that read a symbol of a set. -/
def Footprint.addSymbols (d : Direction) (s : SymbolSet) (f : Footprint) : Footprint :=
  if s.isAscii then (f.addStates 1).addReader s.ranges.length
  else
    match d with
    | .forward => f.addForwardSymbols s
    | .backward => f.addBackwardSymbols s

/-! ### Literals -/

/-- The bytes of a literal, in the order in which they are read. -/
def literalBytes (d : Direction) (cs : List Char) : List UInt8 :=
  let bytes := cs.flatMap String.utf8EncodeChar
  match d with
  | .forward => bytes
  | .backward => bytes.reverse

/-- The lists between the empty ones. -/
def listsBetweenEmpty : List (List UInt8) → List (List (List UInt8))
  | [] => [[]]
  | [] :: ls => [] :: listsBetweenEmpty ls
  | l :: ls =>
    match listsBetweenEmpty ls with
    | [] => [[l]]
    | c :: cs => (l :: c) :: cs

/-- The bytes that some lists start with, each once. -/
def firstBytes (ls : List (List UInt8)) : List UInt8 := (ls.filterMap List.head?).eraseDups

/-- What follows a byte in the lists that start with it. -/
def restsAfter (b : UInt8) (ls : List (List UInt8)) : List (List UInt8) :=
  (ls.filter (·.head? == some b)).map (·.drop 1)

/-- Adds a state that reads one of `n` bytes. -/
def Footprint.addByteReader (n : Nat) (f : Footprint) : Footprint :=
  if n ≤ 1 then f.addStates n else f.addReader n

/--
Adds the tree of some literals. A node at which literals end prefers the earlier ones to them and
them to the later ones, so that its bytes are read in several steps; a leaf needs no state.
-/
def Footprint.addTree : Nat → List (List UInt8) → Footprint → Footprint
  | 0, _, f => f
  | n + 1, ls, f =>
    if ls.all (·.isEmpty) then f
    else
      let steps := listsBetweenEmpty (ls.dropWhile (·.isEmpty))
      let endings := steps.length - 1 + if ls.head? = some [] then 1 else 0
      let reading := steps.filter (!·.isEmpty)
      let f := f.addEach (fun step f =>
        let bytes := firstBytes step
        let f := f.addByteReader bytes.length
        f.addEach (fun b f => f.addTree n (restsAfter b step)) bytes) reading
      f.addFork (reading.length + endings)

/-- The literals, if every expression is one. -/
def literals? (es : List Expression) : Option (List (List Char)) :=
  es.mapM fun
    | .literal cs => some cs
    | _ => none

/-! ### Expressions -/

mutual

/-- Adds the states of an expression. -/
def Expression.addTo (d : Direction) : Expression → Footprint → Footprint
  | .empty, f | .look _, f => f.addStates 1
  | .literal cs, f => f.addStates (literalBytes d cs).length
  | .oneOf s _, f => f.addSymbols d s
  | .sequence es, f =>
    match d with
    | .forward => addInOrder d es f
    | .backward => addReversed d es f
  | .either es, f =>
    match literals? es with
    | some ls =>
      let ls := ls.map (literalBytes d)
      (f.addStates 1).addTree ((ls.map List.length).foldl max 0 + 1) ls
    | none => addBranches d 0 es f
  | .captured _ e, f =>
    match d with
    | .forward => (e.addTo d (f.addStates 1)).addStates 1
    | .backward => e.addTo d f
  | .repeated e least most _, f =>
    match least, most with
    | 0, some 1 => (e.addTo d (f.addFork 2)).addStates 1
    | 0, none =>
      if e.needsSymbol? = some true then e.addTo d (f.addFork 2)
      else (((e.addTo d f).addFork 2).addFork 2).addStates 1
    | n + 1, none => (f.addTimes (e.addTo d) (n + 1)).addFork 2
    | n, some m =>
      let f := if n = 0 then f.addStates 1 else f.addTimes (e.addTo d) n
      if n = m then f
      else (f.addStates 1).addTimes (fun f => e.addTo d (f.addFork 2)) (m - n)

/-- Adds the states of the parts of a sequence, the first one first. -/
def Expression.addInOrder (d : Direction) : List Expression → Footprint → Footprint
  | [], f => f
  | e :: es, f => addInOrder d es (e.addTo d f)

/-- Adds the states of the parts of a sequence, the last one first. -/
def Expression.addReversed (d : Direction) : List Expression → Footprint → Footprint
  | [], f => f
  | e :: es, f => e.addTo d (addReversed d es f)

/-- Adds the states of alternatives after `n` others: the fork to them and the end after two. -/
def Expression.addBranches (d : Direction) (n : Nat) : List Expression → Footprint → Footprint
  | [], f => f
  | e :: es, f =>
    let f := e.addTo d f
    addBranches d (n + 1) es (if n = 1 then (f.addFork 2).addStates 1
      else if n = 0 then f else { f with ways := f.ways + 4 })

end

/-- The size of the machine of an expression. -/
def Expression.footprint (d : Direction) (e : Expression) : Footprint :=
  let isAnchored := match d with
    | .forward => e.isStartAnchored
    | .backward => e.isEndAnchored
  let start : Footprint := {}
  let start :=
    if isAnchored then start.addStates 1 else ((start.addFork 2).addStates 1).addReader 1
  let whole := match d with
    | .forward => (e.addTo d (start.addStates 1)).addStates 1
    | .backward => e.addTo d start
  whole.addStates 1

/-- Whether one of the machines of the expression takes too much. -/
def Expression.isTooLarge (e : Expression) : Bool :=
  (e.footprint .forward).isTooLarge || (e.footprint .backward).isTooLarge

end FiniteAutomata.Pattern
