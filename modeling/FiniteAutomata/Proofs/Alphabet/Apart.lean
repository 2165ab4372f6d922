import Mathlib.Data.List.Nodup
import FiniteAutomata.Alphabet

/-!
# Alphabets whose ranges are apart

The ranges of an alphabet are apart when between any two of them a symbol is missing. Such an alphabet
is determined by its symbols (`Apart.intervals_eq`) and lists them in ascending order
(`Apart.ascending_symbols`). Inserting symbols out of order may leave ranges that are not apart, but not
if each symbol is there already or above all others (`Apart.insert`).
-/
namespace FiniteAutomata

/-! ## Searching and merging -/

namespace SymbolRange

theorem absorb_eq_self {r : SymbolRange} {ss : List SymbolRange} (h : ∀ s ∈ ss, s.stop < r.start) :
    absorb r ss = (r, ss) := by
  cases ss with
  | nil => rfl
  | cons s ss =>
    have hs := h s (by simp)
    refine if_neg ?_
    simp only [touches, Bool.and_eq_true, decide_eq_true_eq]
    omega

end SymbolRange

namespace Alphabet

variable {a b : Alphabet} {c : Char}

theorem search?_eq_none {p : SymbolRange → Bool} {n : Nat} (hn : n ≤ a.ranges.length)
    (h : ∀ s ∈ a.ranges, p s = false) : a.search? p n = none := by
  rw [Option.eq_none_iff_forall_ne_some]
  intro i hi
  obtain ⟨r, rest, hr, hp⟩ := take_of_search? hn hi
  have hm : r ∈ a.ranges := List.mem_of_mem_take (List.mem_reverse.1 (hr ▸ List.mem_cons_self))
  rw [h r hm] at hp
  cases hp

/-! ## Inserting a range -/

theorem ranges_insertRange (a : Alphabet) {t : SymbolRange} (ht : t.start < t.stop) :
    (a.insertRange t).ranges =
      (a.merged t).2.reverse ++ (a.merged t).1 :: a.ranges.drop (a.placeOf t) := by
  rw [insertRange, dif_pos ht]

theorem ranges_insert (a : Alphabet) (c : Char) :
    (a.insert c).ranges = (a.merged (.between c c)).2.reverse ++
      (a.merged (.between c c)).1 :: a.ranges.drop (a.placeOf (.between c c)) :=
  a.ranges_insertRange (by simp)

section Extend
variable {rs ss : List SymbolRange} {r t : SymbolRange}

/-- The place of a range that starts in another one, or directly after it, is after that other one. -/
theorem Apart.placeOf_eq (h : a.Apart) (e : a.ranges = rs ++ r :: ss) (ht : t.start < t.stop)
    (hl : r.start ≤ t.start) (hu : t.start ≤ r.stop) (hs : ∀ s ∈ ss, t.stop < s.start) :
    a.placeOf t = rs.length + 1 := by
  have htake := take_countUpTo_eq e (Nat.le_trans hl (Nat.le_of_lt ht)) hs
  have hcount : a.countUpTo t.stop = rs.length + 1 := by
    have := congrArg List.length htake
    rw [List.length_take, Nat.min_eq_left (a.countUpTo_le _)] at this
    simpa using this
  have hsearch : a.search? (fun s => decide (t.start ≤ s.stop)) (rs.length + 1) = some 0 := by
    have hrev : (a.ranges.take (rs.length + 1)).reverse = r :: rs.reverse := by
      rw [← hcount, htake, List.reverse_append]
      rfl
    refine search?_eq_zero hrev (by simpa using hu) fun s hm => ?_
    have := h.stop_lt_start_left e s (List.mem_reverse.1 hm)
    simp; omega
  simp only [placeOf, hcount, hsearch]
  rfl

/-- A range that starts in another one, or directly after it, and ends before the next extends that
other one alone. -/
theorem Apart.ranges_insertRange_of_touches (h : a.Apart) (e : a.ranges = rs ++ r :: ss)
    (ht : t.start < t.stop) (hl : r.start ≤ t.start) (hu : t.start ≤ r.stop)
    (hs : ∀ s ∈ ss, t.stop < s.start) : (a.insertRange t).ranges = rs ++ t.hull r :: ss := by
  have hp := h.placeOf_eq e ht hl hu hs
  have hrs := h.stop_lt_start_left e
  have htouch : t.touches r = true := by
    simp only [SymbolRange.touches, Bool.and_eq_true, decide_eq_true_eq]
    omega
  have htake : a.ranges.take (rs.length + 1) = rs ++ [r] := by
    rw [e, ← List.singleton_append, ← List.append_assoc]
    exact List.take_left' (by simp)
  have hdrop : a.ranges.drop (rs.length + 1) = ss := by
    rw [e, ← List.singleton_append, ← List.append_assoc]
    exact List.drop_left' (by simp)
  have hmerged : a.merged t = (t.hull r, rs.reverse) := by
    rw [merged, hp, htake, List.reverse_append, List.reverse_singleton, List.singleton_append,
      SymbolRange.absorb_cons_of_touches htouch, SymbolRange.absorb_eq_self]
    intro s hm
    rw [SymbolRange.start_hull]
    have := hrs s (List.mem_reverse.1 hm)
    omega
  rw [ranges_insertRange a ht, hmerged, hp, hdrop, List.reverse_reverse]

theorem Apart.insertRange_of_touches (h : a.Apart) (e : a.ranges = rs ++ r :: ss)
    (ht : t.start < t.stop) (hl : r.start ≤ t.start) (hu : t.start ≤ r.stop)
    (hs : ∀ s ∈ ss, t.stop < s.start) : (a.insertRange t).Apart := by
  have hranges := h.ranges_insertRange_of_touches e ht hl hu hs
  have hstart := SymbolRange.start_hull t r
  have hstop := SymbolRange.stop_hull t r
  unfold Apart at h ⊢
  rw [hranges]
  rw [e] at h
  obtain ⟨h₁, h₂, h₃⟩ := List.pairwise_append.1 h
  obtain ⟨h₄, h₅⟩ := List.pairwise_cons.1 h₂
  refine List.pairwise_append.2 ⟨h₁, List.pairwise_cons.2 ⟨fun s hm => ?_, h₅⟩, fun s hm u hu' => ?_⟩
  · have := h₄ s hm
    have := hs s hm
    omega
  · rcases List.mem_cons.1 hu' with rfl | hu'
    · have := h₃ s hm r List.mem_cons_self
      omega
    · exact h₃ s hm u (List.mem_cons_of_mem r hu')

end Extend

/-- A range above all others, but for a symbol that is missing, stays as it is. -/
theorem ranges_insertRange_of_above {t : SymbolRange} (ht : t.start < t.stop)
    (hs : ∀ s ∈ a.ranges, s.stop < t.start) : (a.insertRange t).ranges = a.ranges ++ [t] := by
  have hcount : a.countUpTo t.stop = a.ranges.length := by
    have hall : ∀ s ∈ a.ranges, decide (s.start ≤ t.stop) = true := by
      intro s hm
      have := hs s hm
      have := a.nonempty s hm
      simp; omega
    have htake : (a.ranges ++ []).takeWhile (fun s => decide (s.start ≤ t.stop)) =
        a.ranges ++ [].takeWhile _ := List.takeWhile_append_of_pos hall
    rw [List.append_nil, List.takeWhile_nil, List.append_nil] at htake
    rw [countUpTo, htake]
  have hsearch : a.search? (fun s => decide (t.start ≤ s.stop)) a.ranges.length = none := by
    refine search?_eq_none (Nat.le_refl _) fun s hm => ?_
    have := hs s hm
    simp; omega
  have hp : a.placeOf t = a.ranges.length := by
    simp only [placeOf, hcount, hsearch]
    rfl
  have hmerged : a.merged t = (t, a.ranges.reverse) := by
    rw [merged, hp, List.take_length, SymbolRange.absorb_eq_self]
    exact fun s hm => hs s (List.mem_reverse.1 hm)
  rw [ranges_insertRange a ht, hmerged, hp, List.drop_length, List.reverse_reverse]

theorem Apart.insertRange_of_above {t : SymbolRange} (h : a.Apart) (ht : t.start < t.stop)
    (hs : ∀ s ∈ a.ranges, s.stop < t.start) : (a.insertRange t).Apart := by
  unfold Apart
  rw [ranges_insertRange_of_above ht hs]
  refine List.pairwise_append.2 ⟨h, by simp, fun s hm u hu => ?_⟩
  rw [List.mem_singleton.1 hu]
  exact hs s hm

/-- A range that starts no earlier than any other leaves the ranges apart. -/
theorem Apart.insertRange_of_start_le {t : SymbolRange} (h : a.Apart) (hs : ∀ s ∈ a.ranges, s.start ≤ t.start) :
    (a.insertRange t).Apart := by
  by_cases ht : t.start < t.stop
  · rcases List.eq_nil_or_concat a.ranges with hnil | ⟨rs, r, e⟩
    · exact h.insertRange_of_above ht (by simp [hnil])
    · rw [List.concat_eq_append] at e
      by_cases hu : t.start ≤ r.stop
      · exact h.insertRange_of_touches e ht (hs r (by simp [e])) hu nofun
      · refine h.insertRange_of_above ht fun s hm => ?_
        rw [e, List.mem_append, List.mem_singleton] at hm
        rcases hm with hm | rfl
        · have := h.stop_lt_start_left e s hm
          have := hs r (by simp [e])
          omega
        · omega
  · rwa [Alphabet.insertRange, dif_neg ht]

/-! ## Inserting a symbol -/

/-- A rank below which all symbols are has no range that ends after it. -/
theorem stop_le_of_forall_lt {n : Nat} (h : ∀ d ∈ a.symbols, symbolRank d < n) :
    ∀ s ∈ a.ranges, s.stop ≤ n := by
  intro s hs
  have hne := a.nonempty s hs
  have hle := s.stop_le
  have hrank := symbolRank_symbolOfRank (n := s.stop - 1) (by omega)
  have hm : symbolOfRank (s.stop - 1) ∈ a.symbols := by
    refine mem_symbols.2 (List.any_eq_true.2 ⟨s, hs, ?_⟩)
    simp only [SymbolRange.contains, hrank, Bool.and_eq_true, decide_eq_true_eq]
    omega
  have := h _ hm
  omega

/-- **A symbol that is there already or above all others leaves the ranges apart.** -/
theorem Apart.insert (h : a.Apart)
    (hc : c ∈ a.symbols ∨ ∀ d ∈ a.symbols, symbolRank d < symbolRank c) : (a.insert c).Apart := by
  have ht : (SymbolRange.between c c).start < (SymbolRange.between c c).stop := by simp
  have hstart := SymbolRange.start_between c c
  have hstop' := SymbolRange.stop_between c c
  rcases hc with hc | hc
  · obtain ⟨r, hr, hrc⟩ := List.any_eq_true.1 (mem_symbols.1 hc)
    simp only [SymbolRange.contains, Bool.and_eq_true, decide_eq_true_eq] at hrc
    obtain ⟨rs, ss, e⟩ := List.append_of_mem hr
    refine h.insertRange_of_touches e ht (by omega) (by omega) fun s hs => ?_
    have := h.stop_lt_start_right e s hs
    omega
  · refine h.insertRange_of_start_le fun s hs => ?_
    have := stop_le_of_forall_lt hc s hs
    have := a.nonempty s hs
    omega

/-! ## What an alphabet without overlaps lists -/

theorem pairwise_symbols_range (r : SymbolRange) :
    r.symbols.Pairwise fun c d => symbolRank c < symbolRank d := by
  refine List.pairwise_map.2 ?_
  refine (List.pairwise_lt_range' (s := r.start) (n := r.stop - r.start)).imp_of_mem ?_
  intro m n hm hn hlt
  have := r.stop_le
  rw [List.mem_range'_1] at hm hn
  rw [symbolRank_symbolOfRank (by omega), symbolRank_symbolOfRank (by omega)]
  exact hlt

/-- Where no two ranges overlap, the symbols are listed in ascending order. -/
theorem ascending_symbols_of_stop_le (h : a.ranges.Pairwise fun r s => r.stop ≤ s.start) :
    a.symbols.Pairwise fun c d => symbolRank c < symbolRank d := by
  refine List.pairwise_flatMap.2 ⟨fun r _ => pairwise_symbols_range r, h.imp fun {r s} hrs c hc d hd => ?_⟩
  have hc := (SymbolRange.mem_symbols r.stop_le).1 hc
  have hd := (SymbolRange.mem_symbols s.stop_le).1 hd
  simp only [SymbolRange.contains, Bool.and_eq_true, decide_eq_true_eq] at hc hd
  omega

theorem Apart.ascending_symbols (h : a.Apart) :
    a.symbols.Pairwise fun c d => symbolRank c < symbolRank d :=
  ascending_symbols_of_stop_le (h.imp fun h => Nat.le_of_lt h)

/-- Where no symbol is listed twice, no two ranges overlap. -/
theorem stop_le_of_nodup_symbols (h : a.symbols.Nodup) : a.ranges.Pairwise fun r s => r.stop ≤ s.start := by
  obtain ⟨-, h⟩ := List.nodup_flatMap.1 h
  refine (h.and a.ascending).imp_of_mem fun {r s} hr hs hrs => ?_
  obtain ⟨hd, hlt⟩ := hrs
  have hne := a.nonempty s hs
  have hle := s.stop_le
  -- otherwise both ranges list the first symbol of the second one
  rw [← Nat.not_lt]
  intro hover
  have hrank := symbolRank_symbolOfRank (n := s.start) (by omega)
  refine hd (a := symbolOfRank s.start) ?_ ?_
  · refine (SymbolRange.mem_symbols r.stop_le).2 ?_
    simp only [SymbolRange.contains, hrank, Bool.and_eq_true, decide_eq_true_eq]
    omega
  · refine (SymbolRange.mem_symbols s.stop_le).2 ?_
    simp only [SymbolRange.contains, hrank, Bool.and_eq_true, decide_eq_true_eq]
    omega

/-- No symbol is listed twice exactly if the symbols are listed in ascending order. -/
theorem nodup_symbols_iff :
    a.symbols.Nodup ↔ a.symbols.Pairwise fun c d => symbolRank c < symbolRank d := by
  constructor
  · exact fun h => ascending_symbols_of_stop_le (stop_le_of_nodup_symbols h)
  · intro h
    refine h.imp fun hlt e => ?_
    rw [e] at hlt
    exact Nat.lt_irrefl _ hlt

/-! ## What determines the ranges -/

/-- Whether some range has the symbol of a rank. -/
def Covers (rs : List SymbolRange) (n : Nat) : Prop := ∃ r ∈ rs, r.start ≤ n ∧ n < r.stop

theorem covers_iff {n : Nat} (hn : n < symbolCount) :
    Covers a.ranges n ↔ symbolOfRank n ∈ a.symbols := by
  rw [mem_symbols, List.any_eq_true]
  refine exists_congr fun r => and_congr_right fun _ => ?_
  simp only [SymbolRange.contains, symbolRank_symbolOfRank hn, Bool.and_eq_true, decide_eq_true_eq]

theorem Covers.lt {rs : List SymbolRange} {n : Nat} (h : Covers rs n) : n < symbolCount := by
  obtain ⟨r, -, -, hr⟩ := h
  exact Nat.lt_of_lt_of_le hr r.stop_le

section Determined
variable {r s : SymbolRange} {rs ss : List SymbolRange}

theorem start_le_of_covers (hr : r.start < r.stop)
    (hs : (s :: ss).Pairwise fun r s => r.stop < s.start) (hne : ∀ t ∈ s :: ss, t.start < t.stop)
    (h : ∀ n, Covers (r :: rs) n → Covers (s :: ss) n) : s.start ≤ r.start := by
  obtain ⟨t, ht, hle, -⟩ := h r.start ⟨r, by simp, Nat.le_refl _, hr⟩
  rcases List.mem_cons.1 ht with rfl | ht
  · exact hle
  · have := (List.pairwise_cons.1 hs).1 t ht
    have := hne s (by simp)
    omega

theorem stop_le_of_covers (hr : (r :: rs).Pairwise fun r s => r.stop < s.start)
    (hstart : r.start = s.start) (hne : r.start < r.stop)
    (h : ∀ n, Covers (s :: ss) n → Covers (r :: rs) n) : s.stop ≤ r.stop := by
  rw [← Nat.not_lt]
  intro hlt
  obtain ⟨t, ht, hle, hlt'⟩ := h r.stop ⟨s, by simp, by omega, hlt⟩
  rcases List.mem_cons.1 ht with rfl | ht
  · exact Nat.lt_irrefl _ hlt'
  · have := (List.pairwise_cons.1 hr).1 t ht
    omega

theorem Covers.tail (hr : (r :: rs).Pairwise fun r s => r.stop < s.start) (hstop : r.stop = s.stop)
    (h : ∀ n, Covers (r :: rs) n → Covers (s :: ss) n) {n : Nat} (hn : Covers rs n) :
    Covers ss n := by
  obtain ⟨t, ht, hle, hlt⟩ := hn
  have hgt := (List.pairwise_cons.1 hr).1 t ht
  obtain ⟨u, hu, hle', hlt'⟩ := h n ⟨t, List.mem_cons_of_mem r ht, hle, hlt⟩
  rcases List.mem_cons.1 hu with rfl | hu
  · omega
  · exact ⟨u, hu, hle', hlt'⟩

/-- Ranges that are apart are determined by the ranks that they cover. -/
theorem map_bounds_eq_of_covers {rs ss : List SymbolRange}
    (hr : rs.Pairwise fun r s => r.stop < s.start) (hs : ss.Pairwise fun r s => r.stop < s.start)
    (hrn : ∀ r ∈ rs, r.start < r.stop) (hsn : ∀ s ∈ ss, s.start < s.stop)
    (h : ∀ n, Covers rs n ↔ Covers ss n) :
    rs.map (fun r => (r.start, r.stop)) = ss.map fun s => (s.start, s.stop) := by
  induction rs generalizing ss with
  | nil =>
    cases ss with
    | nil => rfl
    | cons s ss =>
      obtain ⟨t, ht, -⟩ := (h s.start).2 ⟨s, by simp, Nat.le_refl _, hsn s (by simp)⟩
      cases ht
  | cons r rs ih =>
    cases ss with
    | nil =>
      obtain ⟨t, ht, -⟩ := (h r.start).1 ⟨r, by simp, Nat.le_refl _, hrn r (by simp)⟩
      cases ht
    | cons s ss =>
      have hrne := hrn r (by simp)
      have hsne := hsn s (by simp)
      have hrs := fun n => (h n).1
      have hsr := fun n => (h n).2
      have hstart : r.start = s.start :=
        Nat.le_antisymm (start_le_of_covers hsne hr hrn hsr) (start_le_of_covers hrne hs hsn hrs)
      have hstop : r.stop = s.stop :=
        Nat.le_antisymm (stop_le_of_covers hs hstart.symm hsne hrs)
          (stop_le_of_covers hr hstart hrne hsr)
      rw [List.map_cons, List.map_cons, hstart, hstop]
      refine congrArg _ (ih (List.pairwise_cons.1 hr).2 (List.pairwise_cons.1 hs).2
        (fun t ht => hrn t (List.mem_cons_of_mem r ht)) (fun t ht => hsn t (List.mem_cons_of_mem s ht))
        fun n => ⟨Covers.tail hr hstop hrs, Covers.tail hs hstop.symm hsr⟩)

end Determined

/-- **Alphabets whose ranges are apart are determined by their symbols.** -/
theorem Apart.intervals_eq (ha : a.Apart) (hb : b.Apart) (h : ∀ c, c ∈ a.symbols ↔ c ∈ b.symbols) :
    a.intervals = b.intervals := by
  refine map_bounds_eq_of_covers ha hb a.nonempty b.nonempty fun n => ⟨fun hn => ?_, fun hn => ?_⟩
  · exact (covers_iff hn.lt).2 ((h _).1 ((covers_iff hn.lt).1 hn))
  · exact (covers_iff hn.lt).2 ((h _).2 ((covers_iff hn.lt).1 hn))

theorem apart_iff_intervals :
    a.Apart ↔ a.intervals.Pairwise fun i j => i.2 < j.1 := by
  rw [intervals, List.pairwise_map]
  rfl

/-- Equal alphabets have their ranges apart or not alike. -/
theorem Apart.congr (ha : a.Apart) (h : a.intervals = b.intervals) : b.Apart := by
  rw [apart_iff_intervals] at ha ⊢
  rwa [← h]

/-- Symbols that are listed in ascending order are determined by their set. -/
theorem symbols_eq_of_nodup (ha : a.symbols.Nodup) (hb : b.symbols.Nodup)
    (h : ∀ c, c ∈ a.symbols ↔ c ∈ b.symbols) : a.symbols = b.symbols := by
  refine ((List.perm_ext_iff_of_nodup ha hb).2 h).eq_of_pairwise ?_ (nodup_symbols_iff.1 ha)
    (nodup_symbols_iff.1 hb)
  intro c d _ _ hcd hdc
  omega

end Alphabet

end FiniteAutomata
