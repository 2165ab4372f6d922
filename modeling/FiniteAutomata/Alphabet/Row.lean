import FiniteAutomata.Alphabet.Range

/-!
# Rows of ranges

A new range is merged with the ranges before its place, nearest first, as long as they touch. A
range is searched for in a row whose ranges have levels in a search tree. Main statements: merging
keeps the symbols (`SymbolRange.any_absorb`), a search finds a range with the property it asks for
(`SymbolRange.drop_of_seek`) and stops at the last range when no other one has it
(`SymbolRange.seek_eq_zero`).
-/
namespace FiniteAutomata

namespace SymbolRange

/-! ### Merging -/

/-- Merges a range with the ranges of a list, nearest first, as long as they touch. -/
def absorb (r : SymbolRange) : List SymbolRange → SymbolRange × List SymbolRange
  | [] => (r, [])
  | s :: ss => if r.touches s then absorb (r.hull s) ss else (r, s :: ss)

theorem absorb_cons_of_touches {r s : SymbolRange} (h : r.touches s = true)
    (ss : List SymbolRange) : absorb r (s :: ss) = absorb (r.hull s) ss := by
  rw [absorb, if_pos h]

theorem start_absorb_le (r : SymbolRange) (ss : List SymbolRange) :
    (absorb r ss).1.start ≤ r.start := by
  induction ss generalizing r with
  | nil => exact Nat.le_refl _
  | cons s ss ih =>
    unfold absorb
    split
    · exact Nat.le_trans (ih _) (by rw [start_hull]; omega)
    · exact Nat.le_refl _

theorem nonempty_absorb {r : SymbolRange} (hr : r.start < r.stop) (ss : List SymbolRange) :
    (absorb r ss).1.start < (absorb r ss).1.stop := by
  induction ss generalizing r with
  | nil => exact hr
  | cons s ss ih =>
    unfold absorb
    split
    · exact ih (by rw [start_hull, stop_hull]; omega)
    · exact hr

theorem suffix_absorb (r : SymbolRange) (ss : List SymbolRange) : (absorb r ss).2 <:+ ss := by
  induction ss generalizing r with
  | nil => exact List.suffix_refl _
  | cons s ss ih =>
    unfold absorb
    split
    · exact (ih _).trans (List.suffix_cons s ss)
    · exact List.suffix_refl _

/-- The ranges that are left over start before the merged one. -/
theorem start_lt_start_absorb {r : SymbolRange} {ss : List SymbolRange}
    (hn : ∀ s ∈ ss, s.start < s.stop) (hd : ss.Pairwise fun s t => t.start < s.start)
    (hr : ∀ s ∈ ss, s.start ≤ r.stop) :
    ∀ s ∈ (absorb r ss).2, s.start < (absorb r ss).1.start := by
  induction ss generalizing r with
  | nil => simp [absorb]
  | cons s ss ih =>
    obtain ⟨hs, hd⟩ := List.pairwise_cons.1 hd
    have hn' := hn s (by simp)
    have hr' := hr s (by simp)
    unfold absorb
    split
    · refine ih (fun t ht => hn t (by simp [ht])) hd fun t ht => ?_
      have := hs t ht
      rw [stop_hull]; omega
    · rename_i h
      simp only [touches, Bool.and_eq_true, decide_eq_true_eq, not_and] at h
      intro t ht
      rcases List.mem_cons.1 ht with rfl | ht
      · simp only; omega
      · have := hs t ht
        simp only; omega

/-- Merging keeps the symbols. -/
theorem any_absorb (r : SymbolRange) (ss : List SymbolRange) (c : Char) :
    ((absorb r ss).1.contains c || (absorb r ss).2.any (·.contains c)) =
      (r.contains c || ss.any (·.contains c)) := by
  induction ss generalizing r with
  | nil => rfl
  | cons s ss ih =>
    unfold absorb
    split
    · rename_i h
      rw [ih, contains_hull h, List.any_cons, Bool.or_assoc]
    · rfl

/-! ### Searching -/

/--
The search for a range with a property among ranges with their levels, the last one first: how many
ranges follow the one that is found. The search sees a range only if it is above those that follow
it, looks at those of greater levels first and stops at the first with the property. The level given
is the least that it still sees.
-/
def seek (p : SymbolRange → Bool) : Nat → List (Nat × SymbolRange) → Option Nat
  | _, [] => none
  | level, (l, r) :: rest =>
    if l < level then (seek p level rest).map (· + 1)
    else
      match seek p (l + 1) rest with
      | some i => some (i + 1)
      | none => if p r then some 0 else none

/-- The range that is found has the property. -/
theorem drop_of_seek {p : SymbolRange → Bool} {level i : Nat} {rs : List (Nat × SymbolRange)}
    (h : seek p level rs = some i) : ∃ e rest, rs.drop i = e :: rest ∧ p e.2 = true := by
  induction rs generalizing level i with
  | nil => cases h
  | cons e rs ih =>
    obtain ⟨l, r⟩ := e
    unfold seek at h
    split at h
    · obtain ⟨j, hj, rfl⟩ := Option.map_eq_some_iff.1 h
      exact ih hj
    · split at h
      · rename_i j hj
        cases h
        exact ih hj
      · split at h
        · rename_i hp
          cases h
          exact ⟨(l, r), rs, rfl, hp⟩
        · cases h

/-- A search stops at the last range when no other one has the property. -/
theorem seek_eq_zero {p : SymbolRange → Bool} {e : Nat × SymbolRange}
    {es : List (Nat × SymbolRange)} (h : p e.2 = true) (hes : ∀ f ∈ es, p f.2 = false) :
    seek p 0 (e :: es) = some 0 := by
  have hnone : seek p (e.1 + 1) es = none := by
    rw [Option.eq_none_iff_forall_ne_some]
    intro i hi
    obtain ⟨f, rest, hd, hf⟩ := drop_of_seek hi
    have hm : f ∈ es := List.mem_of_mem_drop (hd ▸ List.mem_cons_self)
    rw [hes f hm] at hf
    cases hf
  rw [seek, if_neg (Nat.not_lt_zero e.1), hnone]
  simp [h]

end SymbolRange

end FiniteAutomata
