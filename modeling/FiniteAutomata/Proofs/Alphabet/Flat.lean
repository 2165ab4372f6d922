import Mathlib.Data.List.TakeWhile
import FiniteAutomata.Proofs.Alphabet.Apart

/-!
# Alphabets in a single node

As long as the search tree is a single node, a search looks at all ranges that start early enough, so a new
range is merged with every range that it touches. Main theorem `Flat.apart_insertRange`: a tree of one node whose
ranges are apart stays one when a range is inserted, if the node has room for it.
-/
namespace FiniteAutomata

/-! ## Gaps in a single node -/

namespace TreeGap

/-- All items are in leaves, and so in a single one. -/
def Flat (g : TreeGap) : Prop := (∀ l ∈ g.before, l = 0) ∧ ∀ l ∈ g.after, l = 0

variable {g : TreeGap} {side : List Nat}

theorem dropWhile_of_flat (h : ∀ l ∈ side, l = 0) : side.dropWhile (· ≤ 0) = [] := by
  rw [List.dropWhile_eq_nil_iff]
  intro l hl
  simp [h l hl]

theorem borrow?_of_flat (h : ∀ l ∈ side, l = 0) : borrow? 0 side = none := by
  rw [borrow?, dropWhile_of_flat h]

theorem hasNeighbour_of_flat (h : ∀ l ∈ side, l = 0) : hasNeighbour 0 side = false := by
  rw [hasNeighbour, dropWhile_of_flat h]
  rfl

/-- A single leaf has no neighbours to be filled from. -/
theorem Flat.fillUp_eq (h : g.Flat) (bound : Nat) : fillUp bound 0 g = g := by
  cases bound with
  | zero => rfl
  | succ bound =>
    unfold fillUp
    split
    · rfl
    · simp [borrow?_of_flat h.1, borrow?_of_flat h.2, hasNeighbour_of_flat h.1, hasNeighbour_of_flat h.2]

theorem Flat.remove (h : g.Flat) : g.remove.Flat := by
  obtain ⟨before, after⟩ := g
  cases before with
  | nil => exact h
  | cons l ls =>
    obtain ⟨hbefore, hafter⟩ := h
    obtain rfl : l = 0 := hbefore l (by simp)
    have hflat : Flat ⟨ls, after⟩ := ⟨fun l hl => hbefore l (by simp [hl]), hafter⟩
    have hremove : TreeGap.remove ⟨0 :: ls, after⟩ = ⟨ls, after⟩ := hflat.fillUp_eq _
    rwa [hremove]

theorem Flat.removeMany (h : g.Flat) (k : Nat) : (removeMany k g).Flat := by
  induction k generalizing g with
  | zero => exact h
  | succ k ih => exact ih h.remove

theorem itemsOn_le (n : Nat) (side : List Nat) : itemsOn n side ≤ side.length :=
  Nat.le_trans List.count_le_length (List.takeWhile_sublist _).length_le

/-- An item that there is room for is put into the leaf. -/
theorem Flat.insert (h : g.Flat) (hroom : g.size < maxItems 0) : g.insert.Flat := by
  have hflat : Flat ⟨0 :: g.before, g.after⟩ := by
    refine ⟨fun l hl => ?_, h.2⟩
    rcases List.mem_cons.1 hl with rfl | hl
    · rfl
    · exact h.1 l hl
  have hitems : items ⟨0 :: g.before, g.after⟩ 0 ≤ maxItems 0 := by
    have hbefore := itemsOn_le 0 (0 :: g.before)
    have hafter := itemsOn_le 0 g.after
    rw [List.length_cons] at hbefore
    unfold size at hroom
    simp only [items]
    omega
  have hinsert : g.insert = ⟨0 :: g.before, g.after⟩ := by
    rw [TreeGap.insert, splitUp, if_pos hitems]
  rwa [hinsert]

end TreeGap

/-! ## Merging in a single node -/

namespace SymbolRange

variable {r : SymbolRange} {ss : List SymbolRange} {n : Nat}

theorem stop_absorb_lt (hr : r.stop < n) (hs : ∀ s ∈ ss, s.stop < n) : (absorb r ss).1.stop < n := by
  induction ss generalizing r with
  | nil => exact hr
  | cons s ss ih =>
    unfold absorb
    split
    · refine ih ?_ fun t ht => hs t (List.mem_cons_of_mem s ht)
      rw [stop_hull]
      exact Nat.max_lt.2 ⟨hr, hs s (by simp)⟩
    · exact hr

/-- The ranges that are left over do not touch the merged one, if they were apart. -/
theorem stop_lt_start_absorb (hn : ∀ s ∈ ss, s.start < s.stop) (hd : ss.Pairwise fun s t => t.stop < s.start)
    (hr : ∀ s ∈ ss, s.start ≤ r.stop) : ∀ s ∈ (absorb r ss).2, s.stop < (absorb r ss).1.start := by
  induction ss generalizing r with
  | nil => simp [absorb]
  | cons s ss ih =>
    obtain ⟨hs, hd⟩ := List.pairwise_cons.1 hd
    have hr' := hr s (by simp)
    unfold absorb
    split
    · refine ih (fun t ht => hn t (List.mem_cons_of_mem s ht)) hd fun t ht => ?_
      have := hr t (List.mem_cons_of_mem s ht)
      rw [stop_hull]
      omega
    · rename_i h
      simp only [touches, Bool.and_eq_true, decide_eq_true_eq, not_and] at h
      intro t ht
      rcases List.mem_cons.1 ht with rfl | ht
      · simp only
        omega
      · have := hs t ht
        have := hn s (by simp)
        simp only
        omega

theorem seek_of_lt {p : SymbolRange → Bool} {level : Nat} {rs : List (Nat × SymbolRange)}
    (h : ∀ e ∈ rs, e.1 < level) : seek p level rs = none := by
  induction rs with
  | nil => rfl
  | cons e rs ih =>
    rw [seek, if_pos (h e (by simp)), ih fun f hf => h f (List.mem_cons_of_mem e hf)]
    rfl

end SymbolRange

namespace Alphabet

/-- The search tree is a single node. -/
def Flat (a : Alphabet) : Prop := ∀ l ∈ a.levels, l = 0

variable {a : Alphabet} {r : SymbolRange}

/-- A search in a single node ends at the last range that starts early enough, if anywhere. -/
theorem Flat.search?_eq (h : a.Flat) (p : SymbolRange → Bool) (n : Nat) :
    a.search? p n = none ∨ a.search? p n = some 0 := by
  have hlevel : ∀ e ∈ ((a.levels.zip a.ranges).take n).reverse, e.1 = 0 := fun e he =>
    h e.1 (List.of_mem_zip (List.mem_of_mem_take (List.mem_reverse.1 he))).1
  unfold search?
  cases hes : ((a.levels.zip a.ranges).take n).reverse with
  | nil => exact .inl rfl
  | cons e es =>
    rw [hes] at hlevel
    have hnone : SymbolRange.seek p (e.1 + 1) es = none := SymbolRange.seek_of_lt fun f hf => by
      rw [hlevel f (List.mem_cons_of_mem e hf)]
      exact Nat.succ_pos e.1
    rw [SymbolRange.seek, if_neg (Nat.not_lt_zero e.1), hnone]
    cases p e.2 with
    | true => exact .inr rfl
    | false => exact .inl rfl

theorem Flat.placeOf_eq (h : a.Flat) (r : SymbolRange) : a.placeOf r = a.countUpTo r.stop := by
  unfold placeOf
  rcases h.search?_eq (fun s => decide (r.start ≤ s.stop)) (a.countUpTo r.stop) with hs | hs <;> simp [hs]

theorem Flat.levelsWith (h : a.Flat) (hroom : (a.levelsWith r).length ≤ TreeGap.maxItems 0) :
    ∀ l ∈ a.levelsWith r, l = 0 := by
  have hflat : (TreeGap.ofList a.levels (a.placeOf r)).Flat :=
    ⟨fun l hl => h l (List.mem_of_mem_take (List.mem_reverse.1 hl)), fun l hl => h l (List.mem_of_mem_drop hl)⟩
  have hremoved := hflat.removeMany (a.placeOf r - (a.merged r).2.length)
  have hsize : (TreeGap.removeMany (a.placeOf r - (a.merged r).2.length)
      (TreeGap.ofList a.levels (a.placeOf r))).size < TreeGap.maxItems 0 := by
    simp only [Alphabet.levelsWith, TreeGap.toList, List.length_append, List.length_reverse,
      (TreeGap.length_before_insert _).1, (TreeGap.length_before_insert _).2] at hroom
    unfold TreeGap.size
    omega
  obtain ⟨hbefore, hafter⟩ := hremoved.insert hsize
  intro l hl
  rcases List.mem_append.1 hl with hl | hl
  · exact hbefore l (List.mem_reverse.1 hl)
  · exact hafter l hl

theorem Flat.insertRange (h : a.Flat) (hroom : (a.insertRange r).ranges.length ≤ TreeGap.maxItems 0) :
    (a.insertRange r).Flat := by
  by_cases hr : r.start < r.stop
  · rw [← (a.insertRange r).length_levels] at hroom
    have hlevels : (a.insertRange r).levels = a.levelsWith r := by rw [Alphabet.insertRange, dif_pos hr]
    unfold Flat
    rw [hlevels] at hroom ⊢
    exact h.levelsWith hroom
  · -- a range without symbols is dropped
    rwa [Alphabet.insertRange, dif_neg hr]

/-- A range that is merged from behind all ranges that start early enough leaves the ranges apart. -/
theorem Apart.insertRange_of_placeOf (h : a.Apart) (hr : r.start < r.stop)
    (hplace : a.placeOf r = a.countUpTo r.stop) : (a.insertRange r).Apart := by
  have hbefore : ∀ s ∈ a.ranges.take (a.placeOf r), s.start ≤ r.stop := fun s hs =>
    start_le_of_mem_take (hplace ▸ hs)
  have hafter : ∀ s ∈ a.ranges.drop (a.placeOf r), r.stop < s.start := fun s hs =>
    lt_start_of_mem_drop (hplace ▸ hs)
  unfold Apart at h
  rw [← List.take_append_drop (a.placeOf r) a.ranges] at h
  obtain ⟨htake, hdrop, hacross⟩ := List.pairwise_append.1 h
  have hleft : ∀ s ∈ (a.merged r).2, s.stop < (a.merged r).1.start := by
    refine SymbolRange.stop_lt_start_absorb ?_ (List.pairwise_reverse.2 htake) ?_
    · exact fun s hs => a.nonempty s (List.mem_of_mem_take (List.mem_reverse.1 hs))
    · exact fun s hs => hbefore s (List.mem_reverse.1 hs)
  have hright : ∀ s ∈ a.ranges.drop (a.placeOf r), (a.merged r).1.stop < s.start := fun s hs =>
    SymbolRange.stop_absorb_lt (hafter s hs) fun t ht => hacross t (List.mem_reverse.1 ht) s hs
  have hrest : (a.merged r).2.reverse.Pairwise fun s t => s.stop < t.start := by
    have hsuffix := SymbolRange.suffix_absorb r (a.ranges.take (a.placeOf r)).reverse
    exact htake.sublist (List.reverse_reverse (a.ranges.take (a.placeOf r)) ▸ hsuffix.sublist.reverse)
  unfold Apart
  rw [ranges_insertRange a hr]
  refine List.pairwise_append.2 ⟨hrest, List.pairwise_cons.2 ⟨hright, hdrop⟩, fun s hs t ht => ?_⟩
  have hs := List.mem_reverse.1 hs
  rcases List.mem_cons.1 ht with rfl | ht
  · exact hleft s hs
  · exact hacross s (mem_take_of_mem_merged hs) t ht

/-- **Inserting a range into a single node that has room for it leaves a single node, and leaves its ranges
apart.** -/
theorem Flat.apart_insertRange (hf : a.Flat) (h : a.Apart)
    (hroom : (a.insertRange r).ranges.length ≤ TreeGap.maxItems 0) :
    (a.insertRange r).Flat ∧ (a.insertRange r).Apart := by
  refine ⟨hf.insertRange hroom, ?_⟩
  by_cases hr : r.start < r.stop
  · exact h.insertRange_of_placeOf hr (hf.placeOf_eq r)
  · rwa [Alphabet.insertRange, dif_neg hr]

end Alphabet

end FiniteAutomata
