import FiniteAutomata.Proofs.Subset.ReachableSubsets

/-!
# The ceiling on composite states

A construction makes a set a composite state only below its limit. So it never has more composite states than
that, and neither has what it ends with: `size_le_of_determinize`.
-/
namespace FiniteAutomata

namespace Construction

/-- The composite states are counted by the sets that were met, and their number is within the limit. -/
structure Within (limit : Nat) (k : Construction) : Prop where
  names : k.result.names.length = k.ids.size
  states : k.result.states = .below k.ids.size
  le : k.ids.size ≤ limit

variable {a : Automaton} {limit q : Nat} {k k' : Construction} {s : StateSet}

theorem within_start (a : Automaton) (h : limit ≠ 0) : (start a).Within limit := by
  rw [start_eq]
  exact ⟨rfl, rfl, Nat.one_le_iff_ne_zero.2 h⟩

/-- A set that was not met yet takes one of the places that are left. -/
theorem Within.addComposite (h : k.Within limit) (hnew : k.ids.get? s = none) (hlt : k.ids.size < limit) :
    (k.addComposite a s).Within limit := by
  have hsize := Table.size_insert hnew k.result.names.length
  rw [addComposite_eq]
  refine ⟨?_, ?_, ?_⟩
  · rw [hsize, List.length_append, h.names, List.length_singleton]
  · rw [hsize, h.names, h.states]
    exact StateSet.insert_below _
  · rw [hsize]
    exact hlt

theorem Within.visit (h : k.Within limit) (h' : k.visit a limit s = .ok (q, k')) : k'.Within limit := by
  unfold Construction.visit at h'
  split at h'
  · cases h'
    exact h
  · rename_i hnew
    split at h'
    · rename_i hlt
      cases h'
      exact h.addComposite hnew hlt
    · cases h'

theorem Within.connect {es : List (Char × StateSet)} (h : k.Within limit)
    (h' : k.connect a limit q es = .ok k') : k'.Within limit := by
  induction es generalizing k with
  | nil =>
    cases h'
    exact h
  | cons e es ih =>
    unfold Construction.connect at h'
    split at h'
    · cases h'
    · rename_i r k₁ hv
      have h₁ := h.visit hv
      have h₂ : (k₁.addTransition q e.1 r).Within limit := ⟨h₁.names, h₁.states, h₁.le⟩
      exact ih h₂ h'

theorem Within.finish (h : k.Within limit) (a : Automaton) (q : Nat) (s : StateSet) :
    (k.finish a q s).Within limit := by
  unfold Construction.finish
  split <;> exact ⟨h.names, h.states, h.le⟩

/-- **Processing a set keeps the composite states within the limit.** -/
theorem Within.process (h : k.Within limit) (h' : k.process a limit s = .ok k') : k'.Within limit := by
  unfold Construction.process at h'
  split at h'
  · cases h'
    exact h
  · split at h'
    · cases h'
      exact h
    · exact (h.finish a _ s).connect h'

theorem Within.run (h : k.Within limit) (h' : k.run a limit = .ok k') : k'.Within limit := by
  fun_induction Construction.run a limit k with
  | case1 k hw =>
    cases h'
    exact h
  | case2 k s rest hw k₁ hp => cases h'
  | case3 k s rest hw k₁ hp ih =>
    have hrest : ({ k with worklist := rest } : Construction).Within limit := ⟨h.names, h.states, h.le⟩
    exact ih (hrest.process hp) h'

theorem within_construct (h : construct a limit = .ok k) : k.Within limit := by
  unfold construct at h
  split at h
  · cases h
  · rename_i hne
    exact (within_start a hne).run h

theorem Within.size_le (h : k.Within limit) : k.result.size ≤ limit := by
  have hsize : (StateSet.below k.ids.size).size = k.ids.size := List.length_range
  rw [Automaton.size, h.states, hsize]
  exact h.le

end Construction

/-- **The determinization of an automaton that is not deterministic has at most as many states as its
limit.** -/
theorem Automaton.size_le_of_determinize {a : Automaton} {limit : Nat} {d : Determinized}
    (hn : a.isDeterministic = false) (h : a.determinize limit = .ok d) : d.automaton.size ≤ limit := by
  obtain ⟨-, ⟨hd, -⟩ | ⟨-, k, hk, rfl⟩⟩ := determinize_cases h
  · rw [hn] at hd
    cases hd
  · exact (Construction.within_construct hk).size_le

end FiniteAutomata
