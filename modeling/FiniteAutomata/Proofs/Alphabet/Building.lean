import Mathlib.Data.List.Perm.Subperm
import FiniteAutomata.Proofs.Alphabet.Refilling

/-!
# Alphabets that are built

An alphabet is built from symbols and from ranges between two symbols, in any order and overlapping in any
way. Every range that it keeps then includes the symbols at both of its ends (`Built.inclusive`), so its
ranges are determined by their intervals (`Inclusive.ranges_eq`).
-/
namespace FiniteAutomata.Alphabet

/-- The alphabet is filled with symbols and with ranges between two symbols. -/
inductive Built : Alphabet → Prop where
  | empty : Built ∅
  | insert {a : Alphabet} (h : Built a) (c : Char) : Built (a.insert c)
  | insertRange {a : Alphabet} (h : Built a) (first last : Char) :
      Built (a.insertRange (.between first last))

/-- Every range of the alphabet includes the symbols at its ends. -/
def Inclusive (a : Alphabet) : Prop := ∀ r ∈ a.ranges, ∃ first last, r = .between first last

variable {a b : Alphabet}

theorem built_ofSymbols (cs : List Char) : (ofSymbols cs).Built :=
  List.foldlRecOn cs insert (motive := Built) .empty fun _ hb c _ => hb.insert c

/-! ## Bounds that are kept -/

theorem exists_between_hull {r s : SymbolRange} (hr : ∃ c d, r = .between c d)
    (hs : ∃ c d, s = .between c d) : ∃ c d, r.hull s = .between c d := by
  obtain ⟨c, d, rfl⟩ := hr
  obtain ⟨c', d', rfl⟩ := hs
  unfold SymbolRange.hull
  split <;> split
  · exact ⟨c', d', rfl⟩
  · exact ⟨c', d, rfl⟩
  · exact ⟨c, d', rfl⟩
  · exact ⟨c, d, rfl⟩

theorem exists_between_absorb {r : SymbolRange} {ss : List SymbolRange} (hr : ∃ c d, r = .between c d)
    (hs : ∀ s ∈ ss, ∃ c d, s = .between c d) : ∃ c d, (SymbolRange.absorb r ss).1 = .between c d := by
  induction ss generalizing r with
  | nil => exact hr
  | cons s ss ih =>
    unfold SymbolRange.absorb
    split
    · exact ih (exists_between_hull hr (hs s (by simp))) fun t ht => hs t (List.mem_cons_of_mem s ht)
    · exact hr

theorem Inclusive.insertRange (h : a.Inclusive) (first last : Char) :
    (a.insertRange (.between first last)).Inclusive := by
  by_cases ht : (SymbolRange.between first last).start < (SymbolRange.between first last).stop
  · have hbefore : ∀ s ∈ (a.ranges.take (a.placeOf (.between first last))).reverse,
        ∃ c d, s = .between c d :=
      fun s hs => h s (List.mem_of_mem_take (List.mem_reverse.1 hs))
    intro s hs
    rw [ranges_insertRange a ht] at hs
    rcases List.mem_append.1 hs with hs | hs
    · exact hbefore s ((SymbolRange.suffix_absorb _ _).subset (List.mem_reverse.1 hs))
    · rcases List.mem_cons.1 hs with rfl | hs
      · exact exists_between_absorb ⟨first, last, rfl⟩ hbefore
      · exact h s (List.mem_of_mem_drop hs)
  · -- a range whose ends are the wrong way round has no symbols
    rw [Alphabet.insertRange, dif_neg ht]
    exact h

theorem Built.inclusive (h : a.Built) : a.Inclusive := by
  induction h with
  | empty => intro r hr; cases hr
  | insert _ c ih => exact ih.insertRange c c
  | insertRange _ first last ih => exact ih.insertRange first last

theorem Inclusive.bounded (h : a.Inclusive) : a.Bounded := by
  intro r hr
  obtain ⟨c, d, rfl⟩ := h r hr
  exact nofun

/-! ## What determines the ranges -/

theorem Inclusive.ranges_eq_map (h : a.Inclusive) :
    a.ranges = a.intervals.map fun i => .between (symbolOfRank i.1) (symbolOfRank (i.2 - 1)) := by
  have hid : a.ranges = a.ranges.map id := (List.map_id a.ranges).symm
  rw [intervals, List.map_map]
  refine hid.trans (List.map_congr_left fun r hr => ?_)
  obtain ⟨c, d, rfl⟩ := h r hr
  simp only [Function.comp_apply, SymbolRange.start_between, SymbolRange.stop_between,
    Nat.add_sub_cancel, symbolOfRank_symbolRank]
  rfl

/-- **Ranges that include their ends are determined by their intervals.** -/
theorem Inclusive.ranges_eq_iff (ha : a.Inclusive) (hb : b.Inclusive) :
    a.ranges = b.ranges ↔ a.intervals = b.intervals := by
  constructor
  · intro h
    rw [intervals, intervals, h]
  · intro h
    rw [ha.ranges_eq_map, hb.ranges_eq_map, h]

/-- There are at most as many ranges as symbols, since they start with different ones. -/
theorem length_ranges_le (a : Alphabet) : a.ranges.length ≤ symbolCount := by
  have hnodup : (a.ranges.map SymbolRange.start).Nodup := by
    refine List.pairwise_map.2 (a.ascending.imp fun hlt => ?_)
    exact Nat.ne_of_lt hlt
  have hsub : a.ranges.map SymbolRange.start ⊆ List.range symbolCount := by
    intro n hn
    obtain ⟨r, hr, rfl⟩ := List.mem_map.1 hn
    have := a.nonempty r hr
    have := r.stop_le
    rw [List.mem_range]
    omega
  have := (List.subperm_of_subset hnodup hsub).length_le
  rwa [List.length_map, List.length_range] at this

end FiniteAutomata.Alphabet
