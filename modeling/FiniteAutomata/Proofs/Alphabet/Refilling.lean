import FiniteAutomata.Proofs.Alphabet.Apart

/-!
# Filling an alphabet again

The symbols of an alphabet, inserted one by one as they are listed, make an alphabet of the same symbols
whose ranges are apart (`apart_refilled`). So an alphabet is equal to the one that is filled again exactly
if its own ranges are apart (`intervals_refilled_iff`), and lists the same symbols exactly if it lists none
twice (`symbols_refilled_iff`).
-/
namespace FiniteAutomata.Alphabet

variable {a : Alphabet} {c d : Char} {lo n : Nat}

/-! ## Alphabets of symbols -/

theorem mem_symbols_foldl_insert {cs : List Char} :
    d ∈ (cs.foldl insert a).symbols ↔ d ∈ cs ∨ d ∈ a.symbols := by
  induction cs generalizing a with
  | nil => simp
  | cons c cs ih =>
    rw [List.foldl_cons, ih, mem_symbols_insert, List.mem_cons, or_left_comm, or_assoc]

@[simp] theorem mem_symbols_ofSymbols {cs : List Char} : d ∈ (ofSymbols cs).symbols ↔ d ∈ cs := by
  rw [ofSymbols, mem_symbols_foldl_insert, symbols_empty]
  simp

/-- No range of the alphabet lacks an upper bound. -/
def Bounded (a : Alphabet) : Prop := ∀ r ∈ a.ranges, r.upper ≠ .unbounded

theorem upper_absorb_ne {r : SymbolRange} {ss : List SymbolRange} (hr : r.upper ≠ .unbounded)
    (h : ∀ s ∈ ss, s.upper ≠ .unbounded) : (SymbolRange.absorb r ss).1.upper ≠ .unbounded := by
  induction ss generalizing r with
  | nil => exact hr
  | cons s ss ih =>
    have hhull : (r.hull s).upper ≠ .unbounded := by
      unfold SymbolRange.hull
      simp only
      split
      · exact h s (by simp)
      · exact hr
    unfold SymbolRange.absorb
    split
    · exact ih hhull fun t ht => h t (List.mem_cons_of_mem s ht)
    · exact hr

theorem Bounded.insert (h : a.Bounded) (c : Char) : (a.insert c).Bounded := by
  have htake : ∀ s ∈ (a.ranges.take (a.placeOf (.between c c))).reverse, s.upper ≠ .unbounded :=
    fun s hs => h s (List.mem_of_mem_take (List.mem_reverse.1 hs))
  intro s hs
  rw [ranges_insert] at hs
  rcases List.mem_append.1 hs with hs | hs
  · exact htake s ((SymbolRange.suffix_absorb _ _).subset (List.mem_reverse.1 hs))
  · rcases List.mem_cons.1 hs with rfl | hs
    · exact upper_absorb_ne nofun htake
    · exact h s (List.mem_of_mem_drop hs)

theorem bounded_ofSymbols (cs : List Char) : (ofSymbols cs).Bounded :=
  List.foldlRecOn cs insert (motive := Bounded) (by intro r hr; cases hr) fun _ hb c _ => hb.insert c

/-- An alphabet of symbols measures nothing only if it has none. -/
theorem Bounded.symbols_eq_nil (h : a.Bounded) (he : a.isEmpty = true) : a.symbols = [] := by
  unfold isEmpty size at he
  have hr := h
  have hne := a.nonempty
  unfold Bounded at hr
  unfold symbols
  cases hrs : a.ranges with
  | nil => rfl
  | cons r rs =>
    rw [hrs] at he hr hne
    have hlt := hne r (by simp)
    have hu := hr r (by simp)
    rw [List.foldr_cons, beq_iff_eq] at he
    have hm : r.measure = 0 := by omega
    simp only [SymbolRange.measure, if_neg hu] at hm
    omega

/-! ## Inserting in the order of a list -/

/-- The ranges are apart, and from a rank on each symbol is in the alphabet or above all of it. -/
structure DenseFrom (a : Alphabet) (lo : Nat) : Prop where
  apart : a.Apart
  dense : ∀ c, lo ≤ symbolRank c → c ∈ a.symbols ∨ ∀ d ∈ a.symbols, symbolRank d < symbolRank c

theorem DenseFrom.mono (h : a.DenseFrom lo) {lo' : Nat} (hlo : lo ≤ lo') : a.DenseFrom lo' :=
  ⟨h.apart, fun c hc => h.dense c (Nat.le_trans hlo hc)⟩

/-- The next symbol after a run of symbols that are there. -/
theorem DenseFrom.insert (h : a.DenseFrom lo) (hc : lo ≤ symbolRank c)
    (hrun : ∀ d, lo ≤ symbolRank d → symbolRank d < symbolRank c → d ∈ a.symbols) :
    (a.insert c).DenseFrom lo := by
  refine ⟨h.apart.insert (h.dense c hc), fun d hd => ?_⟩
  simp only [mem_symbols_insert]
  rcases Nat.lt_trichotomy (symbolRank d) (symbolRank c) with hlt | heq | hgt
  · exact Or.inl (Or.inr (hrun d hd hlt))
  · exact Or.inl (Or.inl (symbolRank_injective heq))
  · rcases h.dense d hd with hm | ha
    · exact Or.inl (Or.inr hm)
    · refine Or.inr fun e he => ?_
      rcases he with rfl | he
      · exact hgt
      · exact ha e he

theorem DenseFrom.insertRun (h : a.DenseFrom lo) (hn : lo + n ≤ symbolCount) :
    (((List.range' lo n).map symbolOfRank).foldl Alphabet.insert a).DenseFrom lo := by
  induction n with
  | zero => exact h
  | succ n ih =>
    have hrank : symbolRank (symbolOfRank (lo + n)) = lo + n := symbolRank_symbolOfRank (by omega)
    rw [List.range'_1_concat, List.map_append, List.foldl_append]
    refine (ih (by omega)).insert (by rw [hrank]; omega) fun d hd hlt => ?_
    rw [hrank] at hlt
    refine mem_symbols_foldl_insert.2 (Or.inl (List.mem_map.2 ⟨symbolRank d, ?_, ?_⟩))
    · rw [List.mem_range'_1]
      omega
    · exact symbolOfRank_symbolRank d

/-- Ranges in ascending order of their starts may be inserted symbol by symbol. -/
theorem DenseFrom.insertRanges {rs : List SymbolRange} (h : a.DenseFrom lo)
    (hlo : ∀ r ∈ rs, lo ≤ r.start) (hrs : rs.Pairwise fun r s => r.start < s.start)
    (hne : ∀ r ∈ rs, r.start < r.stop) :
    ((rs.flatMap SymbolRange.symbols).foldl Alphabet.insert a).Apart := by
  induction rs generalizing a lo with
  | nil => exact h.apart
  | cons r rs ih =>
    obtain ⟨hr, hrs⟩ := List.pairwise_cons.1 hrs
    have hlt := hne r (by simp)
    have hle := r.stop_le
    have hrun : (r.symbols.foldl Alphabet.insert a).DenseFrom r.start :=
      (h.mono (hlo r (by simp))).insertRun (by omega)
    rw [List.flatMap_cons, List.foldl_append]
    exact ih hrun (fun s hs => Nat.le_of_lt (hr s hs)) hrs fun s hs => hne s (List.mem_cons_of_mem r hs)

/-! ## Filling again -/

/-- **The symbols of an alphabet, as they are listed, make ranges that are apart.** -/
theorem apart_refilled (a : Alphabet) : (ofSymbols a.symbols).Apart := by
  have h : (∅ : Alphabet).DenseFrom 0 := by
    refine ⟨.nil, fun c _ => Or.inr fun d hd => ?_⟩
    rw [symbols_empty] at hd
    cases hd
  exact h.insertRanges (fun r _ => Nat.zero_le _) a.ascending a.nonempty

theorem intervals_refilled_iff : (ofSymbols a.symbols).intervals = a.intervals ↔ a.Apart := by
  constructor
  · exact fun h => (apart_refilled a).congr h
  · exact fun h => (apart_refilled a).intervals_eq h fun c => mem_symbols_ofSymbols

theorem symbols_refilled_iff : (ofSymbols a.symbols).symbols = a.symbols ↔ a.symbols.Nodup := by
  have hr : (ofSymbols a.symbols).symbols.Nodup := nodup_symbols_iff.2 (apart_refilled a).ascending_symbols
  constructor
  · exact fun h => h ▸ hr
  · exact fun h => symbols_eq_of_nodup hr h fun c => mem_symbols_ofSymbols

end FiniteAutomata.Alphabet
