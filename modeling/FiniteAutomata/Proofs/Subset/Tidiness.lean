import FiniteAutomata.Proofs.Automaton.Tidy
import FiniteAutomata.Proofs.Subset.ReachableSubsets

/-!
# The names of the composite states

The names that a construction makes up are not empty and not repeated. Main theorem
`determinize_tidy`: the determinization of a tidy automaton is tidy.
-/
namespace FiniteAutomata

theorem markName_ne_empty {name : String} (h : name ≠ "") (taken : List String) (fuel : Nat) :
    markName taken fuel name ≠ "" := by
  induction fuel generalizing name with
  | zero => exact h
  | succ fuel ih =>
    unfold markName
    split
    · refine ih fun e => ?_
      have := congrArg String.length e
      rw [length_append_mark] at this
      exact Nat.succ_ne_zero _ this
    · exact h

namespace Automaton

theorem joinedName_ne_empty {a : Automaton} {s : StateSet} {q : Nat} (hq : q ∈ s)
    (h : a.display q ≠ "") : a.joinedName s ≠ "" := by
  intro e
  have e := congrArg String.toList e
  rw [joinedName, String.toList_join, String.toList_empty, List.flatMap_eq_nil_iff] at e
  exact h (String.toList_eq_nil_iff.1 (e _ (List.mem_map_of_mem hq)))

theorem bracedName_ne_empty (a : Automaton) (s : StateSet) : a.bracedName s ≠ "" := by
  intro e
  have e := congrArg String.toList e
  simp [bracedName] at e

theorem compositeName_ne_empty {a : Automaton} {s : StateSet} {q : Nat} (hq : q ∈ s)
    (h : a.display q ≠ "") (taken : List String) : a.compositeName taken s ≠ "" := by
  unfold compositeName
  simp only
  split
  · exact markName_ne_empty (a.bracedName_ne_empty s) taken _
  · exact joinedName_ne_empty hq h

end Automaton

namespace Construction

variable {a : Automaton} {k : Construction} {found : List StateSet} {n : Nat}

/-- Each set that is met has a member with a name: transitions lead somewhere, and to declared states. -/
theorem exists_named_member (hv : a.Valid) (h : a.Tidy n) (hfirst : found[0]? = some (.singleton a.initial))
    (O : Originates found (Processed a found found.length)) {q : Nat} {s : StateSet}
    (hq : found[q]? = some s) : ∃ m ∈ s, a.display m ≠ "" := by
  rcases Nat.eq_zero_or_pos q with rfl | hpos
  · obtain rfl := Option.some.inj (hfirst.symm.trans hq)
    exact ⟨a.initial, StateSet.mem_singleton.2 rfl, h.display_ne_empty (h.mem_states.1 hv.initial)⟩
  · obtain ⟨p, c, t, -, ⟨-, m, -, ht⟩, hr⟩ := O q hpos (List.getElem?_eq_some_iff.1 hq).1
    obtain rfl := Option.some.inj (hr.symm.trans hq)
    obtain ⟨rfl, i, hi, targets, hs⟩ := Automaton.get?_merged_eq_some.1 ht
    obtain ⟨r, hr⟩ := h.filled.targets i (some c) targets hs
    have hmem : r ∈ a.step m c := Automaton.mem_step.2 ⟨i, hi, targets, hs, hr⟩
    exact ⟨r, hmem, h.display_ne_empty (h.mem_states.1 (hv.step_declared hmem))⟩

theorem Progress.tidy (P : Progress a k found found.length (Processed a found found.length))
    (O : Originates found (Processed a found found.length)) (hv : a.Valid) (h : a.Tidy n) :
    k.result.Tidy found.length := by
  refine ⟨P.states, P.initial, Nat.le_of_eq P.length_names.symm, P.nodup_names, ?_, P.rows, ?_⟩
  · -- nonempty
    intro name hname
    obtain ⟨q, hq⟩ := List.mem_iff_getElem?.1 (List.mem_of_mem_take hname)
    have hlt : q < found.length := P.length_names ▸ (List.getElem?_eq_some_iff.1 hq).1
    have hs := List.getElem?_eq_getElem hlt
    obtain ⟨m, hm, hd⟩ := exists_named_member hv h P.first O hs
    obtain rfl := Option.some.inj (hq.symm.trans (P.named q _ hs))
    exact Automaton.compositeName_ne_empty hm hd _
  · -- targets
    intro q label targets ht
    obtain ⟨c, s, r, -, -, -, rfl⟩ := (P.edges q label targets).1 ht
    exact ⟨r, StateSet.mem_singleton.2 rfl⟩

end Construction

namespace Automaton

/-- **The determinization of a tidy automaton is tidy.** The construction declares all its names. -/
theorem determinize_tidy {a : Automaton} {limit n : Nat} {d : Determinized} (h : a.Tidy n)
    (hd : a.determinize limit = .ok d) :
    d.automaton.alphabet = a.alphabet ∧ ∃ k, d.automaton.Tidy k ∧
      (a.isDeterministic = false → d.automaton.names.length = k) := by
  obtain ⟨hv, ⟨hdet, rfl⟩ | ⟨-, k, hk, rfl⟩⟩ := determinize_cases hd
  · refine ⟨rfl, n, h, fun hn => ?_⟩
    rw [hdet] at hn
    cases hn
  · obtain ⟨found, P, O⟩ := Construction.progress_construct hk
    exact ⟨P.alphabet, found.length, P.tidy O hv h, fun _ => P.length_names⟩

end Automaton

end FiniteAutomata
