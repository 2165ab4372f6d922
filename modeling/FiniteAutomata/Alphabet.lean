import FiniteAutomata.Alphabet.Row
import FiniteAutomata.Collection.SearchTree
import FiniteAutomata.Text.Escape

/-!
# Alphabets

An alphabet is a set of symbols, kept as ranges in a search tree: the ranges in ascending order of
their starts, and the level of each in the tree. A search for a symbol, or for a range to merge a
new one with, goes down the tree. At each level it looks at one range only, the last one that does
not start too late, and it stops at the first that will do. A new range is merged with the range so
found and with those before it, as long as they touch. Ranges that follow the one found stay as they
are, so where a new range touches ranges of several levels, ranges may overlap afterwards, and then
a search may miss a symbol.

Main statements: inserting a range adds exactly its symbols (`Alphabet.mem_symbols_insertRange`), a
search finds symbols of the alphabet only (`Alphabet.mem_symbols_of_contains`), and all of them
where no ranges overlap (`Alphabet.contains_iff_of_stop_le`).
-/
namespace FiniteAutomata

/-- A set of symbols, as ranges with their levels in a search tree. -/
structure Alphabet where
  ranges : List SymbolRange
  levels : List Nat
  nonempty : ∀ r ∈ ranges, r.start < r.stop
  ascending : ranges.Pairwise fun r s => r.start < s.start
  length_levels : levels.length = ranges.length

namespace Alphabet

open SymbolRange (absorb seek)

/-! ### Searching -/

/--
The search for a range with a property among the first `n` ranges: how many of these follow the one
that is found.
-/
def search? (a : Alphabet) (p : SymbolRange → Bool) (n : Nat) : Option Nat :=
  seek p 0 ((a.levels.zip a.ranges).take n).reverse

/-- How many ranges start no later than a rank. -/
def countUpTo (a : Alphabet) (rank : Nat) : Nat :=
  (a.ranges.takeWhile fun r => decide (r.start ≤ rank)).length

theorem map_snd_take_zip (a : Alphabet) (n : Nat) :
    ((a.levels.zip a.ranges).take n).reverse.map (·.2) = (a.ranges.take n).reverse := by
  rw [List.map_reverse, List.map_take, List.map_snd_zip (Nat.le_of_eq a.length_levels.symm)]

theorem take_countUpTo (a : Alphabet) (rank : Nat) :
    a.ranges.take (a.countUpTo rank) = a.ranges.takeWhile fun r => decide (r.start ≤ rank) := by
  conv => lhs; arg 2; rw [← List.takeWhile_append_dropWhile
    (p := fun r => decide (r.start ≤ rank)) (l := a.ranges)]
  exact List.take_left' rfl

theorem drop_countUpTo (a : Alphabet) (rank : Nat) :
    a.ranges.drop (a.countUpTo rank) = a.ranges.dropWhile fun r => decide (r.start ≤ rank) := by
  conv => lhs; arg 2; rw [← List.takeWhile_append_dropWhile
    (p := fun r => decide (r.start ≤ rank)) (l := a.ranges)]
  exact List.drop_left' rfl

theorem start_le_of_mem_take {a : Alphabet} {rank : Nat} {r : SymbolRange}
    (h : r ∈ a.ranges.take (a.countUpTo rank)) : r.start ≤ rank := by
  rw [take_countUpTo] at h
  simpa using List.all_eq_true.1 List.all_takeWhile r h

theorem start_lt_of_mem_take_drop (a : Alphabet) (k : Nat) {r s : SymbolRange}
    (hr : r ∈ a.ranges.take k) (hs : s ∈ a.ranges.drop k) : r.start < s.start := by
  have h := a.ascending
  rw [← List.take_append_drop k a.ranges] at h
  exact (List.pairwise_append.1 h).2.2 r hr s hs

theorem lt_start_of_mem_drop {a : Alphabet} {rank : Nat} {r : SymbolRange}
    (h : r ∈ a.ranges.drop (a.countUpTo rank)) : rank < r.start := by
  have hp : (a.ranges.drop (a.countUpTo rank)).Pairwise fun r s => r.start < s.start :=
    a.ascending.sublist (List.drop_sublist _ _)
  rw [drop_countUpTo] at h hp
  cases hd : a.ranges.dropWhile fun r => decide (r.start ≤ rank) with
  | nil => simp [hd] at h
  | cons s ss =>
    have hs : rank < s.start := by
      have := List.head?_dropWhile_not (fun r : SymbolRange => decide (r.start ≤ rank)) a.ranges
      simpa [hd] using this
    rw [hd] at h hp
    rcases List.mem_cons.1 h with rfl | h
    · exact hs
    · exact Nat.lt_trans hs ((List.pairwise_cons.1 hp).1 r h)

theorem countUpTo_le (a : Alphabet) (rank : Nat) : a.countUpTo rank ≤ a.ranges.length :=
  (List.takeWhile_sublist _).length_le

/-- The range that is found is the last of those that the ones following it leave. -/
theorem take_of_search? {a : Alphabet} {p : SymbolRange → Bool} {n i : Nat}
    (hn : n ≤ a.ranges.length) (h : a.search? p n = some i) :
    ∃ r rest, (a.ranges.take (n - i)).reverse = r :: rest ∧ p r = true := by
  obtain ⟨e, rest, he, hp⟩ := SymbolRange.drop_of_seek h
  have hm := congrArg (List.map (·.2)) he
  rw [List.map_drop, map_snd_take_zip, List.drop_reverse, List.length_take, Nat.min_eq_left hn,
    List.take_take, Nat.min_eq_left (Nat.sub_le n i), List.map_cons] at hm
  exact ⟨e.2, rest.map (·.2), hm, hp⟩

/-! ### Operations -/

/-- The alphabet without symbols. -/
def empty : Alphabet := ⟨[], [], by simp, .nil, rfl⟩

instance : EmptyCollection Alphabet := ⟨empty⟩
instance : Inhabited Alphabet := ⟨empty⟩

/-- How many ranges come before the place of a new range. -/
def placeOf (a : Alphabet) (r : SymbolRange) : Nat :=
  let n := a.countUpTo r.stop
  n - (a.search? (fun s => r.start ≤ s.stop) n).getD 0

/-- A range merged with those before its place, and those that are left before it, nearest first. -/
def merged (a : Alphabet) (r : SymbolRange) : SymbolRange × List SymbolRange :=
  absorb r (a.ranges.take (a.placeOf r)).reverse

/-- The levels once a range is merged with those before its place and put there. -/
def levelsWith (a : Alphabet) (r : SymbolRange) : List Nat :=
  let gap := TreeGap.ofList a.levels (a.placeOf r)
  ((gap.removeMany (a.placeOf r - (a.merged r).2.length)).insert).toList

theorem placeOf_le (a : Alphabet) (r : SymbolRange) : a.placeOf r ≤ a.countUpTo r.stop :=
  Nat.sub_le _ _

theorem length_take_placeOf (a : Alphabet) (r : SymbolRange) :
    (a.ranges.take (a.placeOf r)).length = a.placeOf r := by
  rw [List.length_take]
  exact Nat.min_eq_left (Nat.le_trans (a.placeOf_le r) (a.countUpTo_le _))

theorem length_merged_le (a : Alphabet) (r : SymbolRange) :
    (a.merged r).2.length ≤ a.placeOf r := by
  have h := (SymbolRange.suffix_absorb r (a.ranges.take (a.placeOf r)).reverse).length_le
  rwa [List.length_reverse, length_take_placeOf] at h

theorem mem_take_of_mem_merged {a : Alphabet} {r s : SymbolRange} (h : s ∈ (a.merged r).2) :
    s ∈ a.ranges.take (a.placeOf r) :=
  List.mem_reverse.1 ((SymbolRange.suffix_absorb r _).subset h)

theorem start_lt_start_merged {a : Alphabet} {r s : SymbolRange} (h : s ∈ (a.merged r).2) :
    s.start < (a.merged r).1.start := by
  refine SymbolRange.start_lt_start_absorb ?_ ?_ ?_ s h
  · exact fun t ht => a.nonempty t (List.mem_of_mem_take (List.mem_reverse.1 ht))
  · exact List.pairwise_reverse.2 (a.ascending.sublist (List.take_sublist _ _))
  · intro t ht
    exact start_le_of_mem_take
      ((List.take_sublist_take_left (a.placeOf_le r)).subset (List.mem_reverse.1 ht))

theorem start_merged_lt {a : Alphabet} {r s : SymbolRange} (hr : r.start < r.stop)
    (h : s ∈ a.ranges.drop (a.placeOf r)) : (a.merged r).1.start < s.start := by
  have hle := SymbolRange.start_absorb_le r (a.ranges.take (a.placeOf r)).reverse
  cases hs : a.search? (fun s => decide (r.start ≤ s.stop)) (a.countUpTo r.stop) with
  | none =>
    have e : a.placeOf r = a.countUpTo r.stop := by simp [placeOf, hs]
    have := lt_start_of_mem_drop (e ▸ h)
    unfold merged; omega
  | some i =>
    have e : a.placeOf r = a.countUpTo r.stop - i := by simp [placeOf, hs]
    obtain ⟨f, rest, hf, hp⟩ := take_of_search? (a.countUpTo_le _) hs
    rw [← e] at hf
    have hm : f ∈ a.ranges.take (a.placeOf r) := List.mem_reverse.1 (by simp [hf])
    have hfr := start_le_of_mem_take
      ((List.take_sublist_take_left (a.placeOf_le r)).subset hm)
    have hfs := a.start_lt_of_mem_take_drop _ hm h
    have ht : r.touches f = true := by simpa [SymbolRange.touches, hfr] using hp
    have hh := SymbolRange.start_absorb_le (r.hull f) rest
    rw [SymbolRange.start_hull] at hh
    rw [merged, hf, SymbolRange.absorb_cons_of_touches ht]
    omega

/-- Adds the symbols of a range. A range without symbols is dropped. -/
def insertRange (a : Alphabet) (r : SymbolRange) : Alphabet :=
  if h : r.start < r.stop then
    { ranges := (a.merged r).2.reverse ++ (a.merged r).1 :: a.ranges.drop (a.placeOf r)
      levels := a.levelsWith r
      nonempty := by
        intro s hs
        rcases List.mem_append.1 hs with hs | hs
        · exact a.nonempty s (List.mem_of_mem_take (mem_take_of_mem_merged (List.mem_reverse.1 hs)))
        · rcases List.mem_cons.1 hs with rfl | hs
          · exact SymbolRange.nonempty_absorb h _
          · exact a.nonempty s (List.mem_of_mem_drop hs)
      ascending := by
        have hr : (a.merged r).2.reverse.Pairwise fun r s => r.start < s.start := by
          refine a.ascending.sublist (List.Sublist.trans ?_ (List.take_sublist (a.placeOf r) _))
          have h := SymbolRange.suffix_absorb r (a.ranges.take (a.placeOf r)).reverse
          exact List.reverse_reverse (a.ranges.take (a.placeOf r)) ▸ h.sublist.reverse
        refine List.pairwise_append.2 ⟨hr, List.pairwise_cons.2 ⟨fun s hs => start_merged_lt h hs,
          a.ascending.sublist (List.drop_sublist _ _)⟩, fun s hs t ht => ?_⟩
        have hs := List.mem_reverse.1 hs
        rcases List.mem_cons.1 ht with rfl | ht
        · exact start_lt_start_merged hs
        · exact Nat.lt_trans (start_lt_start_merged hs) (start_merged_lt h ht)
      length_levels := by
        have hl := a.length_levels
        have hp := a.length_take_placeOf r
        have hm := a.length_merged_le r
        rw [List.length_take] at hp
        simp only [levelsWith, TreeGap.toList, List.length_append, List.length_reverse,
          List.length_cons, List.length_drop, (TreeGap.length_before_insert _).1,
          (TreeGap.length_before_insert _).2, (TreeGap.length_before_removeMany _ _).1,
          (TreeGap.length_before_removeMany _ _).2, TreeGap.ofList, List.length_take]
        omega }
  else a

/-- Adds a symbol. -/
def insert (a : Alphabet) (c : Char) : Alphabet := a.insertRange (.between c c)

/-- The alphabet of the symbols of some ranges. -/
def ofRanges (rs : List SymbolRange) : Alphabet := rs.foldl insertRange ∅

/-- The alphabet of some symbols. -/
def ofSymbols (cs : List Char) : Alphabet := cs.foldl insert ∅

/-- Whether a search finds a symbol. -/
def contains (a : Alphabet) (c : Char) : Bool :=
  (a.search? (·.contains c) (a.countUpTo (symbolRank c))).isSome

/-- The symbols of the ranges, range by range. -/
def symbols (a : Alphabet) : List Char := a.ranges.flatMap (·.symbols)

/-- The sum of the measures of the ranges. -/
def size (a : Alphabet) : Nat := a.ranges.foldr (fun r n => r.measure + n) 0

/-- Whether the alphabet measures nothing. -/
def isEmpty (a : Alphabet) : Bool := a.size == 0

/-- The intervals of ranks of the ranges, which determine the symbols. -/
def intervals (a : Alphabet) : List (Nat × Nat) := a.ranges.map fun r => (r.start, r.stop)

/-- Alphabets of the same intervals compare equal, however their ranges are bounded. -/
instance : BEq Alphabet := ⟨fun a b => a.intervals == b.intervals⟩

/-- The symbols in their written form, separated by spaces. -/
def text (a : Alphabet) : List Char := [' '].intercalate (a.symbols.map escape)

/-! ### Members -/

theorem mem_symbols {a : Alphabet} {c : Char} :
    c ∈ a.symbols ↔ a.ranges.any (·.contains c) = true := by
  simp only [symbols, List.mem_flatMap, List.any_eq_true]
  exact exists_congr fun r => and_congr_right fun _ => SymbolRange.mem_symbols r.stop_le

@[simp] theorem symbols_empty : (∅ : Alphabet).symbols = [] := rfl

/-- Inserting a range adds exactly its symbols. -/
@[simp] theorem mem_symbols_insertRange {a : Alphabet} {r : SymbolRange} {c : Char} :
    c ∈ (a.insertRange r).symbols ↔ r.contains c = true ∨ c ∈ a.symbols := by
  unfold insertRange
  split
  · have h := SymbolRange.any_absorb r (a.ranges.take (a.placeOf r)).reverse c
    have e : a.ranges.any (·.contains c) = ((a.ranges.take (a.placeOf r)).any (·.contains c) ||
        (a.ranges.drop (a.placeOf r)).any (·.contains c)) := by
      rw [← List.any_append, List.take_append_drop]
    rw [List.any_reverse] at h
    rw [mem_symbols, mem_symbols, ← Bool.or_eq_true, e, ← Bool.or_assoc, ← h]
    simp only [merged, List.any_append, List.any_reverse, List.any_cons]
    rw [Bool.or_left_comm, Bool.or_assoc]
  · have : r.contains c = false := by simp [SymbolRange.contains]; omega
    simp [this]

@[simp] theorem mem_symbols_insert {a : Alphabet} {c d : Char} :
    d ∈ (a.insert c).symbols ↔ d = c ∨ d ∈ a.symbols := by
  rw [insert, mem_symbols_insertRange, SymbolRange.contains_between_self]

/-- A search finds symbols of the alphabet only. -/
theorem mem_symbols_of_contains {a : Alphabet} {c : Char} (h : a.contains c = true) :
    c ∈ a.symbols := by
  obtain ⟨i, hi⟩ := Option.isSome_iff_exists.1 h
  obtain ⟨r, rest, hr, hc⟩ := take_of_search? (a.countUpTo_le _) hi
  refine mem_symbols.2 (List.any_eq_true.2 ⟨r, ?_, hc⟩)
  exact List.mem_of_mem_take (List.mem_reverse.1 (hr ▸ List.mem_cons_self))

/-! ### Ranges that are apart -/

/-- Between any two ranges a symbol is missing. -/
def Apart (a : Alphabet) : Prop := a.ranges.Pairwise fun r s => r.stop < s.start

instance (a : Alphabet) : Decidable a.Apart :=
  inferInstanceAs (Decidable (a.ranges.Pairwise fun r s => r.stop < s.start))

theorem search?_eq_zero {a : Alphabet} {p : SymbolRange → Bool} {n : Nat} {r : SymbolRange}
    {rest : List SymbolRange} (e : (a.ranges.take n).reverse = r :: rest) (hr : p r = true)
    (h : ∀ s ∈ rest, p s = false) : a.search? p n = some 0 := by
  have hz := a.map_snd_take_zip n
  rw [e] at hz
  obtain ⟨f, fs, hf, rfl, rfl⟩ := List.map_eq_cons_iff.1 hz
  rw [search?, hf]
  exact SymbolRange.seek_eq_zero hr fun g hg => h _ (List.mem_map_of_mem hg)

section
variable {a : Alphabet} {rs ss : List SymbolRange} {r : SymbolRange}

theorem Apart.stop_lt_start_left (h : a.Apart) (e : a.ranges = rs ++ r :: ss) :
    ∀ s ∈ rs, s.stop < r.start := by
  unfold Apart at h
  rw [e] at h
  exact fun s hs => (List.pairwise_append.1 h).2.2 s hs r (by simp)

theorem Apart.stop_lt_start_right (h : a.Apart) (e : a.ranges = rs ++ r :: ss) :
    ∀ s ∈ ss, r.stop < s.start := by
  unfold Apart at h
  rw [e] at h
  exact (List.pairwise_cons.1 (List.pairwise_append.1 h).2.1).1

/-- The ranges up to one that starts no later than a rank, while the next ones start later. -/
theorem take_countUpTo_eq (e : a.ranges = rs ++ r :: ss) {n : Nat} (hl : r.start ≤ n)
    (hs : ∀ s ∈ ss, n < s.start) : a.ranges.take (a.countUpTo n) = rs ++ [r] := by
  have hss : ss.takeWhile (fun s => decide (s.start ≤ n)) = [] := by
    cases ss with
    | nil => rfl
    | cons s ss =>
      have := hs s (by simp)
      exact List.takeWhile_cons_of_neg (by simp; omega)
  have hascending := a.ascending
  rw [e] at hascending
  rw [take_countUpTo, e, List.takeWhile_append_of_pos, List.takeWhile_cons_of_pos, hss]
  · simpa using hl
  · intro s hm
    have := (List.pairwise_append.1 hascending).2.2 s hm r List.mem_cons_self
    simp; omega

end

/-- Where no ranges overlap, a search finds every symbol. -/
theorem contains_iff_of_stop_le {a : Alphabet} {c : Char}
    (h : a.ranges.Pairwise fun r s => r.stop ≤ s.start) : a.contains c = true ↔ c ∈ a.symbols := by
  refine ⟨mem_symbols_of_contains, fun hc => ?_⟩
  obtain ⟨r, hr, hrc⟩ := List.any_eq_true.1 (mem_symbols.1 hc)
  obtain ⟨rs, ss, e⟩ := List.append_of_mem hr
  have hc := hrc
  simp only [SymbolRange.contains, Bool.and_eq_true, decide_eq_true_eq] at hc
  rw [e] at h
  obtain ⟨-, hss, hrs⟩ := List.pairwise_append.1 h
  have htake := take_countUpTo_eq e hc.1 fun s hs => by
    have := (List.pairwise_cons.1 hss).1 s hs
    omega
  have hrev : (a.ranges.take (a.countUpTo (symbolRank c))).reverse = r :: rs.reverse := by
    rw [htake, List.reverse_append]
    rfl
  have hsearch : a.search? (·.contains c) (a.countUpTo (symbolRank c)) = some 0 := by
    refine search?_eq_zero hrev hrc fun s hs => ?_
    have := hrs s (List.mem_reverse.1 hs) r List.mem_cons_self
    simp only [SymbolRange.contains, Bool.and_eq_false_iff, decide_eq_false_iff_not]
    omega
  rw [contains, hsearch]
  rfl

/-- Where between any two ranges a symbol is missing, a search finds every symbol. -/
theorem contains_iff_mem_symbols {a : Alphabet} {c : Char} (h : a.Apart) :
    a.contains c = true ↔ c ∈ a.symbols :=
  contains_iff_of_stop_le (h.imp Nat.le_of_lt)

end Alphabet

end FiniteAutomata
