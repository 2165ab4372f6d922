/-!
# Ranges of symbols

The Unicode scalar values are numbered without a gap: the rank of a symbol is its code, less the
size of the surrogate block for the codes above it. A range is given by two bounds, which may
include or exclude a symbol or be absent, and denotes an interval of ranks from `start` up to but
excluding `stop`. Two ranges touch when they overlap or when one ends where the other starts.
-/
namespace FiniteAutomata

/-- The number of Unicode scalar values. -/
def symbolCount : Nat := 0x10f800

/-- The position of a symbol among the Unicode scalar values. -/
def symbolRank (c : Char) : Nat := if c.toNat < 0xd800 then c.toNat else c.toNat - 0x800

/-- The symbol of a rank. -/
def symbolOfRank (n : Nat) : Char := Char.ofNat (if n < 0xd800 then n else n + 0x800)

theorem toNat_ofNat {n : Nat} (h : n.isValidChar) : (Char.ofNat n).toNat = n := by
  rw [Char.ofNat, dif_pos h]
  rfl

theorem symbolRank_lt (c : Char) : symbolRank c < symbolCount := by
  have h : c.toNat.isValidChar := c.valid
  unfold symbolRank symbolCount
  rcases h with h | h <;> split <;> omega

theorem symbolOfRank_symbolRank (c : Char) : symbolOfRank (symbolRank c) = c := by
  have h : c.toNat.isValidChar := c.valid
  have e : (if symbolRank c < 0xd800 then symbolRank c else symbolRank c + 0x800) = c.toNat := by
    unfold symbolRank
    rcases h with h | h <;> grind
  rw [symbolOfRank, e, Char.ofNat_toNat]

theorem symbolRank_symbolOfRank {n : Nat} (h : n < symbolCount) :
    symbolRank (symbolOfRank n) = n := by
  unfold symbolCount at h
  have hv : (if n < 0xd800 then n else n + 0x800).isValidChar := by
    unfold Nat.isValidChar; split <;> omega
  unfold symbolRank symbolOfRank
  rw [toNat_ofNat hv]
  grind

theorem symbolRank_injective {c d : Char} (h : symbolRank c = symbolRank d) : c = d := by
  rw [← symbolOfRank_symbolRank c, h, symbolOfRank_symbolRank]

/-! ### Bounds -/

/-- One end of a range of symbols. -/
inductive Bound where
  | included (c : Char)
  | excluded (c : Char)
  | unbounded
  deriving DecidableEq, Repr, Inhabited

/-- The rank of the first symbol above a lower bound. -/
def Bound.start : Bound → Nat
  | .unbounded => 0
  | .included c => symbolRank c
  | .excluded c => symbolRank c + 1

/-- The rank after the one of the last symbol below an upper bound. -/
def Bound.stop : Bound → Nat
  | .unbounded => symbolCount
  | .included c => symbolRank c + 1
  | .excluded c => symbolRank c

/-- A range of symbols, as it is bounded. -/
structure SymbolRange where
  lower : Bound
  upper : Bound
  deriving DecidableEq, Repr, Inhabited

namespace SymbolRange

/-- The rank of the first symbol. -/
def start (r : SymbolRange) : Nat := r.lower.start

/-- The rank after the one of the last symbol. -/
def stop (r : SymbolRange) : Nat := r.upper.stop

/-- Whether the range holds a symbol. -/
def nonempty (r : SymbolRange) : Bool := r.start < r.stop

/-- Whether a symbol is in the range. -/
def contains (r : SymbolRange) (c : Char) : Bool := r.start ≤ symbolRank c && symbolRank c < r.stop

/-- The range between two symbols, both included. -/
def between (first last : Char) : SymbolRange := ⟨.included first, .included last⟩

/-- Whether two ranges touch. -/
def touches (r s : SymbolRange) : Bool := r.start ≤ s.stop && s.start ≤ r.stop

/--
The least range that covers two. Where both of them start or end with the same symbol, the bound of
the first one is kept.
-/
def hull (r s : SymbolRange) : SymbolRange where
  lower := if s.start < r.start then s.lower else r.lower
  upper := if r.stop < s.stop then s.upper else r.upper

/-- The symbols of the range, ascending. -/
def symbols (r : SymbolRange) : List Char :=
  (List.range' r.start (r.stop - r.start)).map symbolOfRank

/--
The measure of the range: its number of symbols, except that a range that spans the surrogate block
measures 4096 more, and that the last symbol of all does not count where an upper bound is absent.
-/
def measure (r : SymbolRange) : Nat :=
  let extra := if r.start < 0xd800 ∧ 0xd800 < r.stop then 0x1000 else 0
  let uncounted := if r.upper = .unbounded then 1 else 0
  r.stop - r.start + extra - uncounted

@[simp] theorem start_between (a b : Char) : (between a b).start = symbolRank a := by
  simp only [start, between, Bound.start]

@[simp] theorem stop_between (a b : Char) : (between a b).stop = symbolRank b + 1 := by
  simp only [stop, between, Bound.stop]

theorem start_hull (r s : SymbolRange) : (r.hull s).start = min r.start s.start := by
  by_cases h : s.start < r.start
  · rw [Nat.min_eq_right (Nat.le_of_lt h), start, hull, if_pos h]; rfl
  · rw [Nat.min_eq_left (Nat.le_of_not_lt h), start, hull, if_neg h]; rfl

theorem stop_hull (r s : SymbolRange) : (r.hull s).stop = max r.stop s.stop := by
  by_cases h : r.stop < s.stop
  · rw [Nat.max_eq_right (Nat.le_of_lt h), stop, hull, if_pos h]; rfl
  · rw [Nat.max_eq_left (Nat.le_of_not_lt h), stop, hull, if_neg h]; rfl

/-- The range from a symbol to itself has that symbol only. -/
theorem contains_between_self {c d : Char} : (between c c).contains d = true ↔ d = c := by
  simp only [contains, start_between, stop_between, Bool.and_eq_true, decide_eq_true_eq]
  exact ⟨fun h => symbolRank_injective (by omega), fun h => by subst h; omega⟩

/-- Of ranges that touch, the least range that covers both has no other symbols. -/
theorem contains_hull {r s : SymbolRange} (h : r.touches s = true) (c : Char) :
    (r.hull s).contains c = (r.contains c || s.contains c) := by
  simp only [touches, Bool.and_eq_true, decide_eq_true_eq] at h
  simp only [contains, start_hull, stop_hull]
  grind

theorem mem_symbols {r : SymbolRange} {c : Char} (h : r.stop ≤ symbolCount) :
    c ∈ r.symbols ↔ r.contains c = true := by
  simp only [symbols, List.mem_map, List.mem_range'_1, contains, Bool.and_eq_true,
    decide_eq_true_eq]
  constructor
  · rintro ⟨n, hn, rfl⟩
    rw [symbolRank_symbolOfRank (by omega)]; omega
  · intro hc
    exact ⟨symbolRank c, by omega, symbolOfRank_symbolRank c⟩

theorem stop_le (r : SymbolRange) : r.stop ≤ symbolCount := by
  unfold stop
  cases r.upper with
  | unbounded => exact Nat.le_refl _
  | included c => exact symbolRank_lt c
  | excluded c => exact Nat.le_of_lt (symbolRank_lt c)

end SymbolRange

end FiniteAutomata
