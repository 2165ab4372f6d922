import FiniteAutomata.Pattern.Node

/-!
# Sets of symbols

A set of symbols is kept as ranges of their codes in ascending order, between which codes are
missing. Main statement: a set that is made of ranges holds exactly their symbols
(`SymbolSet.contains_ofRanges`).
-/
namespace FiniteAutomata.Pattern

/-! ### Ranges of codes -/

/-- The codes from one to another, both included. -/
structure CodeRange where
  first : Nat
  last : Nat
  deriving DecidableEq, Repr

/-- The last code of a symbol. -/
def lastCode : Nat := 0x10ffff

/-- The code of the next symbol, past the surrogates. -/
def nextCode (n : Nat) : Nat := if n = 0xd7ff then 0xe000 else n + 1

/-- The code of the symbol before, past the surrogates. -/
def previousCode (n : Nat) : Nat := if n = 0xe000 then 0xd7ff else n - 1

namespace CodeRange

/-- The range between two symbols, both included. -/
def between (a b : Char) : CodeRange := ⟨a.toNat, b.toNat⟩

/-- The range of which two codes are the ends, in either order. -/
def ofEnds (m n : Nat) : CodeRange := ⟨min m n, max m n⟩

/-- Whether the code of a symbol is in the range. -/
def contains (r : CodeRange) (c : Char) : Bool := r.first ≤ c.toNat && c.toNat ≤ r.last

/-- The codes of both of two ranges, if there are any. -/
def meet? (r s : CodeRange) : Option CodeRange :=
  let m : CodeRange := ⟨max r.first s.first, min r.last s.last⟩
  if m.first ≤ m.last then some m else none

/-- The codes of a range that are not in another one. -/
def without (r s : CodeRange) : List CodeRange :=
  if s.last < r.first ∨ r.last < s.first then [r]
  else
    (if r.first < s.first then [⟨r.first, previousCode s.first⟩] else []) ++
      (if s.last < r.last then [⟨nextCode s.last, r.last⟩] else [])

/-- The other cases of the ASCII letters of the range. -/
def otherCases (r : CodeRange) : List CodeRange :=
  ((r.meet? (between 'a' 'z')).map fun s => ⟨s.first - 32, s.last - 32⟩).toList ++
    ((r.meet? (between 'A' 'Z')).map fun s => ⟨s.first + 32, s.last + 32⟩).toList

end CodeRange

/-- Puts a range at its place, merged with the ranges that it touches. -/
def insertRange (r : CodeRange) : List CodeRange → List CodeRange
  | [] => [r]
  | s :: ss =>
    if s.last + 1 < r.first then s :: insertRange r ss
    else if r.last + 1 < s.first then r :: s :: ss
    else insertRange ⟨min r.first s.first, max r.last s.last⟩ ss

/-- The codes after a range that ends at `last`, between the ranges after it. -/
def gapsAfter (last : Nat) : List CodeRange → List CodeRange
  | [] => if last < lastCode then [⟨nextCode last, lastCode⟩] else []
  | r :: rs => .ofEnds (nextCode last) (previousCode r.first) :: gapsAfter r.last rs

/-! ### Sets -/

/-- A set of symbols, as the ranges of their codes. -/
structure SymbolSet where
  ranges : List CodeRange
  deriving DecidableEq, Repr

namespace SymbolSet

/-- Whether a symbol is in the set. -/
def contains (s : SymbolSet) (c : Char) : Bool := s.ranges.any (·.contains c)

/-- The set of the symbols of some ranges. -/
def ofRanges (rs : List CodeRange) : SymbolSet := ⟨rs.foldl (fun ss r => insertRange r ss) []⟩

/-- The set without symbols. -/
def empty : SymbolSet := ⟨[]⟩

/-- The set of a symbol. -/
def single (c : Char) : SymbolSet := ⟨[.between c c]⟩

/-- The set of some ranges, given by their ends. -/
def ofEnds (es : List (Char × Char)) : SymbolSet := .ofRanges (es.map fun e => .between e.1 e.2)

/-- The symbols of two sets. -/
def union (s t : SymbolSet) : SymbolSet := .ofRanges (s.ranges ++ t.ranges)

/-- The symbols that two sets share. -/
def intersection (s t : SymbolSet) : SymbolSet :=
  ⟨s.ranges.flatMap fun r => t.ranges.filterMap r.meet?⟩

/-- The symbols of a set that are not in another one. -/
def difference (s t : SymbolSet) : SymbolSet :=
  ⟨t.ranges.foldl (fun rs r => rs.flatMap (·.without r)) s.ranges⟩

/--
The symbols that are not in the set. Between two ranges that only the surrogates separate, the gap
is taken to be the two symbols beside it.
-/
def complement (s : SymbolSet) : SymbolSet :=
  match s.ranges with
  | [] => ⟨[⟨0, lastCode⟩]⟩
  | r :: rs =>
    ⟨(if 0 < r.first then [⟨0, previousCode r.first⟩] else []) ++ gapsAfter r.last rs⟩

/-- The complement of a set, or the set itself. -/
def negatedIf (negated : Bool) (s : SymbolSet) : SymbolSet := if negated then s.complement else s

/-- The set that an operation makes of two. -/
def combine (k : ClassOperator) (s t : SymbolSet) : SymbolSet :=
  match k with
  | .intersection => s.intersection t
  | .difference => s.difference t
  | .symmetricDifference => (s.union t).difference (s.intersection t)

/-- The symbols of a set and the other cases of its ASCII letters. -/
def withCases (s : SymbolSet) : SymbolSet :=
  .ofRanges (s.ranges ++ s.ranges.flatMap (·.otherCases))

/-- Whether all symbols are ASCII. -/
def isAscii (s : SymbolSet) : Bool := s.ranges.all (·.last < 0x80)

/-- The symbol of a set that has no other one. -/
def single? (s : SymbolSet) : Option Char :=
  match s.ranges with
  | [r] => if r.first = r.last then some (Char.ofNat r.first) else none
  | _ => none

/-! ### Members -/

theorem any_insertRange (r : CodeRange) (ss : List CodeRange) (c : Char)
    (hr : r.first ≤ r.last) (h : ∀ s ∈ ss, s.first ≤ s.last) :
    (insertRange r ss).any (·.contains c) = (r.contains c || ss.any (·.contains c)) := by
  induction ss generalizing r with
  | nil => simp [insertRange]
  | cons s ss ih =>
    have hs := h s (by simp)
    have ht := fun t (ht : t ∈ ss) => h t (by simp [ht])
    unfold insertRange
    split
    · simp [ih r hr ht, Bool.or_left_comm]
    · split
      · simp
      · rw [ih _ (by simp; omega) ht]
        simp only [CodeRange.contains, List.any_cons]
        grind

theorem first_le_last_insertRange {r : CodeRange} {ss : List CodeRange} (hr : r.first ≤ r.last)
    (h : ∀ s ∈ ss, s.first ≤ s.last) : ∀ s ∈ insertRange r ss, s.first ≤ s.last := by
  induction ss generalizing r with
  | nil => simpa [insertRange] using hr
  | cons s ss ih =>
    have hs := h s (by simp)
    have ht := fun t (ht : t ∈ ss) => h t (by simp [ht])
    unfold insertRange
    split
    · intro t hm
      rcases List.mem_cons.1 hm with rfl | hm
      · exact hs
      · exact ih hr ht t hm
    · split
      · intro t hm
        rcases List.mem_cons.1 hm with rfl | hm
        · exact hr
        · exact h t hm
      · exact ih (by simp; omega) ht

theorem any_foldl_insertRange {rs ss : List CodeRange} (c : Char)
    (hr : ∀ r ∈ rs, r.first ≤ r.last) (hs : ∀ s ∈ ss, s.first ≤ s.last) :
    (rs.foldl (fun ss r => insertRange r ss) ss).any (·.contains c) =
      (rs.any (·.contains c) || ss.any (·.contains c)) := by
  induction rs generalizing ss with
  | nil => simp
  | cons r rs ih =>
    have h := hr r (by simp)
    rw [List.foldl_cons, ih (fun t ht => hr t (by simp [ht])) (first_le_last_insertRange h hs),
      any_insertRange r ss c h hs, List.any_cons, Bool.or_left_comm, Bool.or_assoc]

/-- A set that is made of ranges holds exactly their symbols. -/
theorem contains_ofRanges {rs : List CodeRange} (h : ∀ r ∈ rs, r.first ≤ r.last) (c : Char) :
    (ofRanges rs).contains c = rs.any (·.contains c) := by
  rw [contains, ofRanges, any_foldl_insertRange c h (by simp)]; simp

end SymbolSet

/-! ### Named sets -/

/-- The symbols of a named class. -/
def AsciiClass.set : AsciiClass → SymbolSet
  | alnum => .ofEnds [('0', '9'), ('A', 'Z'), ('a', 'z')]
  | alpha => .ofEnds [('A', 'Z'), ('a', 'z')]
  | ascii => .ofEnds [('\x00', '\x7f')]
  | blank => .ofEnds [('\t', '\t'), (' ', ' ')]
  | cntrl => .ofEnds [('\x00', '\x1f'), ('\x7f', '\x7f')]
  | digit => .ofEnds [('0', '9')]
  | graph => .ofEnds [('!', '~')]
  | lower => .ofEnds [('a', 'z')]
  | print => .ofEnds [(' ', '~')]
  | punct => .ofEnds [('!', '/'), (':', '@'), ('[', '\x60'), ('\x7b', '~')]
  | space => .ofEnds [('\t', '\r'), (' ', ' ')]
  | upper => .ofEnds [('A', 'Z')]
  | word => .ofEnds [('0', '9'), ('A', 'Z'), ('_', '_'), ('a', 'z')]
  | xdigit => .ofEnds [('0', '9'), ('A', 'F'), ('a', 'f')]

/-- The ASCII symbols of the class that an escaped letter stands for. -/
def ShortClass.set : ShortClass → SymbolSet
  | digit => AsciiClass.digit.set
  | blank => AsciiClass.space.set
  | word => AsciiClass.word.set

end FiniteAutomata.Pattern
