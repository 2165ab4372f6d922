import FiniteAutomata.Proofs.Alphabet.Building

/-!
# Reading an alphabet again

The ranges of an alphabet, inserted one after the other as they are written down, make an alphabet of the
same symbols (`mem_symbols_reread`) whose ranges are apart (`apart_reread`). So the ranges come back as they
were exactly if they were apart (`ranges_reread_iff`): those that overlap or touch are merged on the way.
-/
namespace FiniteAutomata.Alphabet

variable {a b : Alphabet} {c : Char} {r t : SymbolRange} {rs : List SymbolRange}

/-- The alphabet that is read from the ranges of an alphabet. -/
def reread (a : Alphabet) : Alphabet := .ofRanges a.ranges

/-! ## Inserting ranges in the order of their starts -/

theorem start_le_of_mem_insertRange {n : Nat} (ht : t.start ≤ n) (hs : ∀ s ∈ a.ranges, s.start ≤ n) :
    ∀ s ∈ (a.insertRange t).ranges, s.start ≤ n := by
  by_cases h : t.start < t.stop
  · intro s hm
    rw [ranges_insertRange a h] at hm
    rcases List.mem_append.1 hm with hm | hm
    · exact hs s (List.mem_of_mem_take (mem_take_of_mem_merged (List.mem_reverse.1 hm)))
    · rcases List.mem_cons.1 hm with rfl | hm
      · exact Nat.le_trans (SymbolRange.start_absorb_le t _) ht
      · exact hs s (List.mem_of_mem_drop hm)
  · rwa [Alphabet.insertRange, dif_neg h]

theorem apart_foldl_insertRange (h : a.Apart) (hle : ∀ s ∈ a.ranges, ∀ r ∈ rs, s.start ≤ r.start)
    (hrs : rs.Pairwise fun r s => r.start ≤ s.start) : (rs.foldl insertRange a).Apart := by
  induction rs generalizing a with
  | nil => exact h
  | cons r rs ih =>
    obtain ⟨hr, hrs⟩ := List.pairwise_cons.1 hrs
    have hapart := h.insertRange_of_start_le fun s hs => hle s hs r (by simp)
    rw [List.foldl_cons]
    refine ih hapart (fun s hs t ht => ?_) hrs
    exact start_le_of_mem_insertRange (hr t ht) (fun s hs => hle s hs t (List.mem_cons_of_mem r ht)) s hs

/-- Ranges in ascending order of their starts make ranges that are apart. -/
theorem apart_ofRanges (h : rs.Pairwise fun r s => r.start ≤ s.start) : (ofRanges rs).Apart :=
  apart_foldl_insertRange .nil nofun h

/-- Ranges that are apart are kept as they are. -/
theorem ranges_foldl_insertRange (h : (a.ranges ++ rs).Pairwise fun r s => r.stop < s.start)
    (hne : ∀ r ∈ rs, r.start < r.stop) : (rs.foldl insertRange a).ranges = a.ranges ++ rs := by
  induction rs generalizing a with
  | nil => rw [List.append_nil]; rfl
  | cons r rs ih =>
    have hs : ∀ s ∈ a.ranges, s.stop < r.start := fun s hs =>
      (List.pairwise_append.1 h).2.2 s hs r List.mem_cons_self
    have hranges := ranges_insertRange_of_above (hne r (by simp)) hs
    have e : a.ranges ++ r :: rs = (a.insertRange r).ranges ++ rs := by
      rw [hranges, List.append_assoc, List.singleton_append]
    rw [List.foldl_cons, e]
    apply ih (e ▸ h) fun t ht => hne t (List.mem_cons_of_mem r ht)

theorem mem_symbols_foldl_insertRange :
    c ∈ (rs.foldl insertRange a).symbols ↔ rs.any (·.contains c) = true ∨ c ∈ a.symbols := by
  induction rs generalizing a with
  | nil => simp
  | cons r rs ih =>
    rw [List.foldl_cons, ih, mem_symbols_insertRange, List.any_cons, Bool.or_eq_true, or_left_comm, or_assoc]

theorem mem_symbols_ofRanges : c ∈ (ofRanges rs).symbols ↔ rs.any (·.contains c) = true := by
  rw [ofRanges, mem_symbols_foldl_insertRange, symbols_empty]
  simp

/-! ## What is read again -/

/-- **The ranges of an alphabet, inserted as they are listed, are apart.** -/
theorem apart_reread (a : Alphabet) : a.reread.Apart :=
  apart_ofRanges (a.ascending.imp Nat.le_of_lt)

theorem mem_symbols_reread : c ∈ a.reread.symbols ↔ c ∈ a.symbols := by
  rw [reread, mem_symbols_ofRanges, ← mem_symbols]

theorem ranges_reread_iff : a.reread.ranges = a.ranges ↔ a.Apart := by
  constructor
  · intro h
    have hapart := apart_reread a
    unfold Apart at hapart ⊢
    rwa [h] at hapart
  · intro h
    exact ranges_foldl_insertRange (a := ∅) h a.nonempty

theorem intervals_reread_iff : a.reread.intervals = a.intervals ↔ a.Apart := by
  constructor
  · exact fun h => (apart_reread a).congr h
  · exact fun h => (apart_reread a).intervals_eq h fun c => mem_symbols_reread

end FiniteAutomata.Alphabet
