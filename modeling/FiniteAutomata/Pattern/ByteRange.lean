import FiniteAutomata.Pattern.SymbolSet

/-!
# The bytes of symbols

The symbols of a range are written in UTF-8 as sequences of bytes. A range is cut into pieces until
the bytes of a piece are all the sequences with one byte of each of some ranges. A range is cut at
the surrogates, where the number of bytes changes, and where leading bytes stay the same for only a
part of the bytes after them.
-/
namespace FiniteAutomata.Pattern

/-- The bytes from one to another, both included. -/
structure ByteRange where
  first : UInt8
  last : UInt8
  deriving DecidableEq, Repr

/-- The parts of a range before and after the surrogates. -/
def withoutSurrogates (r : CodeRange) : List CodeRange :=
  if r.first < 0xe000 ∧ 0xd7ff < r.last then
    [⟨r.first, 0xd7ff⟩, ⟨0xe000, r.last⟩].filter fun s => s.first ≤ s.last
  else [r]

/-- Where the symbols of a range change their number of bytes: the first one with more bytes. -/
def lengthCut? (r : CodeRange) : Option Nat :=
  [0x80, 0x800, 0x10000].find? fun n => r.first < n && n ≤ r.last

/-- Where a range is cut so that its pieces are made of whole blocks of a size. -/
def blockCut? (r : CodeRange) (size : Nat) : Option Nat :=
  if r.first / size = r.last / size then none
  else if r.first % size ≠ 0 then some ((r.first / size + 1) * size)
  else if r.last % size ≠ size - 1 then some (r.last / size * size)
  else none

/-- Where a range is cut first: at the start of its second piece. -/
def cut? (r : CodeRange) : Option Nat :=
  match lengthCut? r with
  | some n => some n
  | none => if r.last < 0x80 then none else [64, 4096, 262144].findSome? (blockCut? r)

/-- The ranges of the bytes of the symbols between two of them. -/
def bytesBetween (r : CodeRange) : List ByteRange :=
  List.zipWith ByteRange.mk (String.utf8EncodeChar (Char.ofNat r.first))
    (String.utf8EncodeChar (Char.ofNat r.last))

/-- The byte sequences of a range without surrogates, in ascending order. -/
def byteSequencesOf (r : CodeRange) : List (List ByteRange) :=
  match cut? r with
  | none => [bytesBetween r]
  | some n =>
    if _h : r.first < n ∧ n ≤ r.last then
      byteSequencesOf ⟨r.first, n - 1⟩ ++ byteSequencesOf ⟨n, r.last⟩
    else [bytesBetween r]
  termination_by r.last - r.first
  decreasing_by all_goals omega

/-- The byte sequences of the symbols of a set, in ascending order. -/
def SymbolSet.byteSequences (s : SymbolSet) : List (List ByteRange) :=
  (s.ranges.flatMap withoutSurrogates).flatMap byteSequencesOf

end FiniteAutomata.Pattern
