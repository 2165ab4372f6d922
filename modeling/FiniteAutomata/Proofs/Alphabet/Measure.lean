import FiniteAutomata.Proofs.Alphabet.Filling

/-!
# The size of an alphabet

The size of an alphabet is the sum of the measures of its ranges. A range that goes on across the surrogate
block measures 4096 more than it has symbols. Main theorem `size_filled`: the size is the number of symbols
that are listed and 4096 for each such range. Where the ranges are apart, there is one if the symbols on both
sides of the block were put in, and none otherwise. Where they are not, there may be none in the first case as
well (`unbridged`), or several that overlap (`bridgedTwice`).
-/
namespace FiniteAutomata

namespace SymbolRange

variable {r : SymbolRange} {c : Char}

/-- The range goes on across the surrogate block: it has the last symbol before it and the first one after it. -/
def bridges (r : SymbolRange) : Bool := r.contains '\ud7ff' && r.contains '\ue000'

theorem bridges_iff : r.bridges = true ↔ r.start < 0xd800 ∧ 0xd800 < r.stop := by
  have hbefore : symbolRank '\ud7ff' = 0xd7ff := by decide
  have hafter : symbolRank '\ue000' = 0xd800 := by decide
  simp only [bridges, contains, hbefore, hafter, Bool.and_eq_true, decide_eq_true_eq]
  omega

theorem length_symbols (r : SymbolRange) : r.symbols.length = r.stop - r.start := by
  rw [symbols, List.length_map, List.length_range']

/-- A range with an upper bound measures its number of symbols, and 4096 more if it goes on across the block. -/
theorem measure_eq (h : r.upper ≠ .unbounded) :
    r.measure = r.symbols.length + 4096 * if r.bridges then 1 else 0 := by
  simp only [measure, if_neg h, length_symbols, bridges_iff]
  split <;> rfl

theorem count_symbols (r : SymbolRange) (c : Char) : r.symbols.count c = if r.contains c then 1 else 0 := by
  have hnodup : r.symbols.Nodup := (Alphabet.pairwise_symbols_range r).imp fun hlt e => by
    rw [e] at hlt
    exact Nat.lt_irrefl _ hlt
  rw [hnodup.count]
  simp only [mem_symbols r.stop_le]

end SymbolRange

namespace Alphabet

variable {a : Alphabet} {c : Char}

/-- How many ranges go on across the surrogate block. -/
def bridges (a : Alphabet) : Nat := a.ranges.countP (·.bridges)

theorem built_filled (is : List Insertion) : (filled is).Built :=
  List.foldlRecOn is put (motive := Built) .empty fun _ hb i _ => by
    cases i with
    | symbol c => exact hb.insert c
    | range first last => exact hb.insertRange first last

/-- **The size of an alphabet is the number of symbols listed, and 4096 for each range that goes on across the
surrogate block.** -/
theorem Bounded.size_eq (h : a.Bounded) : a.size = a.symbols.length + 4096 * a.bridges := by
  unfold size symbols bridges
  suffices ∀ rs : List SymbolRange, (∀ r ∈ rs, r.upper ≠ .unbounded) →
      rs.foldr (fun r n => r.measure + n) 0 = (rs.flatMap (·.symbols)).length + 4096 * rs.countP (·.bridges)
    from this a.ranges h
  intro rs h
  induction rs with
  | nil => rfl
  | cons r rs ih =>
    have hr := SymbolRange.measure_eq (h r (by simp))
    have hrs := ih fun s hs => h s (List.mem_cons_of_mem r hs)
    rw [List.foldr_cons, List.flatMap_cons, List.length_append, List.countP_cons]
    omega

/-- A symbol is listed once for each range that has it. -/
theorem count_symbols (a : Alphabet) (c : Char) : a.symbols.count c = a.ranges.countP (·.contains c) := by
  unfold symbols
  induction a.ranges with
  | nil => rfl
  | cons r rs ih => rw [List.flatMap_cons, List.count_append, ih, r.count_symbols, List.countP_cons, Nat.add_comm]

/-- Each range that goes on across the surrogate block lists the symbols on both of its sides. -/
theorem bridges_le_count (h : c = '\ud7ff' ∨ c = '\ue000') : a.bridges ≤ a.symbols.count c := by
  rw [count_symbols]
  refine List.countP_mono_left fun r _ hr => ?_
  obtain ⟨hbefore, hafter⟩ := Bool.and_eq_true_iff.1 hr
  rcases h with rfl | rfl
  · exact hbefore
  · exact hafter

/-- Where the ranges are apart, the symbols on both sides of the surrogate block are in one range. -/
theorem Apart.bridges_pos (h : a.Apart) (hbefore : '\ud7ff' ∈ a.symbols) (hafter : '\ue000' ∈ a.symbols) :
    0 < a.bridges := by
  obtain ⟨r, hr, hrc⟩ := List.any_eq_true.1 (mem_symbols.1 hbefore)
  obtain ⟨s, hs, hsc⟩ := List.any_eq_true.1 (mem_symbols.1 hafter)
  obtain ⟨rs, ss, e⟩ := List.append_of_mem hr
  have hrc' := hrc
  have hsc' := hsc
  have hnext : symbolRank '\ue000' = symbolRank '\ud7ff' + 1 := by decide
  simp only [SymbolRange.contains, Bool.and_eq_true, decide_eq_true_eq] at hrc' hsc'
  rw [e, List.mem_append, List.mem_cons] at hs
  rcases hs with hs | rfl | hs
  · have := h.stop_lt_start_left e s hs
    omega
  · exact List.countP_pos_iff.2 ⟨s, hr, Bool.and_eq_true_iff.2 ⟨hrc, hsc⟩⟩
  · -- the two are neighbours, so no symbol is missing between them
    have := h.stop_lt_start_right e s hs
    omega

theorem Apart.bridges_eq (h : a.Apart) :
    a.bridges = if '\ud7ff' ∈ a.symbols ∧ '\ue000' ∈ a.symbols then 1 else 0 := by
  have hbefore := bridges_le_count (a := a) (.inl rfl)
  have hafter := bridges_le_count (a := a) (.inr rfl)
  rw [(nodup_symbols_iff.2 h.ascending_symbols).count] at hbefore hafter
  have hpos := h.bridges_pos
  grind

/-- An alphabet with two ranges that go on across the surrogate block and overlap. -/
def bridgedTwice : Alphabet :=
  ofRanges [.between '\ud7f0' '\ud7f0', .between '\ud7f2' '\ud7f2', .between '\ud7f4' '\ud7f4',
    .between '\ud7f6' '\ud7f6', .between '\ud7f8' '\ud7f8', .between '\ud7ff' '\ue000',
    .between '\ue004' '\ue004', .between '\ue006' '\ue006', .between '\ue008' '\ue008',
    .between '\ud7f8' '\ue001']

/-- An alphabet with the symbols on both sides of the surrogate block in two ranges that touch. -/
def unbridged : Alphabet :=
  ofSymbols ['\ud7f6', '\ud7f8', '\ud7fa', '\ud7fc', '\ud7fe', '\ue000', '\ue002', '\ue004', '\ue006', '\ud7ff']

end Alphabet

end FiniteAutomata
