import FiniteAutomata.Proofs.Subset.ReachableSubsets

/-!
# Determinizing again

Every transition of a finished construction was written once, so each state has one destination for
each of its symbols. Main theorem `determinize_again`: the result of a determinization is valid and
deterministic, and to determinize it again, with any limit, changes nothing.
-/
namespace FiniteAutomata

namespace Construction

variable {a : Automaton} {k : Construction} {found : List StateSet}

theorem Progress.deterministic {taken : Nat} {written : Nat → Char → StateSet → Prop}
    (P : Progress a k found taken written) : k.result.Deterministic := by
  intro q label t ht
  obtain ⟨c, s, r, hc, -, -, hr⟩ := (P.edges q label t).1 ht
  exact ⟨⟨c, hc⟩, r, hr⟩

/-- The construction only uses symbols of a valid automaton, and states that it declared. -/
theorem Progress.valid (P : Progress a k found found.length (Processed a found found.length))
    (hv : a.Valid) : k.result.Valid := by
  have hmem : ∀ q, q ∈ k.result.states ↔ q < found.length := by
    intro q
    rw [P.states, StateSet.mem_below]
  refine ⟨?_, ?_, ?_, ?_⟩
  · -- initial
    rw [hmem, P.initial]
    exact (List.getElem?_eq_some_iff.1 P.first).1
  · -- finals
    intro q hq
    exact (hmem q).2 ((P.finals q).1 hq).1
  · -- sources
    intro q row hrow
    obtain ⟨label, t, ht⟩ := P.rows q row hrow
    obtain ⟨c, s, r, -, hw, -⟩ := (P.edges q label t).1 (Automaton.targets?_eq_some.2 ⟨row, hrow, ht⟩)
    exact (hmem q).2 hw.1
  · -- labels
    intro q label t ht
    obtain ⟨c, s, r, hc, ⟨-, m, -, hu⟩, hr, rfl⟩ := (P.edges q label t).1 ht
    refine ⟨c, hc, ?_, fun p hp => ?_⟩
    · obtain ⟨-, n, -, u, hn⟩ := Automaton.get?_merged_eq_some.1 hu
      obtain ⟨d, hd, hcont, -⟩ := hv.labels n (some c) u hn
      rw [P.alphabet, Option.some.inj hd]
      exact hcont
    · obtain rfl := StateSet.mem_singleton.1 hp
      exact (hmem p).2 (List.getElem?_eq_some_iff.1 hr).1

end Construction

namespace Automaton

/-- A valid deterministic automaton is kept, whatever the limit. -/
theorem determinize_of_deterministic {a : Automaton} (hv : a.Valid) (hd : a.isDeterministic = true)
    (limit : Nat) : a.determinize limit = .ok ⟨a, a.selfComposites⟩ := by
  rw [determinize, problem?_eq_none_iff.2 hv]
  exact if_pos hd

theorem get?_selfComposites {a : Automaton} {q : Nat} {s : StateSet} :
    a.selfComposites.get? q = some s ↔ a.isDeclared q = true ∧ s = .singleton q := by
  rw [selfComposites, Table.get?_ofList_map, isDeclared_iff]
  by_cases hq : q ∈ a.states
  · simp [hq, eq_comm]
  · simp [hq]

theorem valid_deterministic_determinize {a : Automaton} {limit : Nat} {d : Determinized}
    (h : a.determinize limit = .ok d) : d.automaton.Valid ∧ d.automaton.isDeterministic = true := by
  obtain ⟨hv, ⟨hd, rfl⟩ | ⟨-, k, hk, rfl⟩⟩ := determinize_cases h
  · exact ⟨hv, hd⟩
  · obtain ⟨found, P, -⟩ := Construction.progress_construct hk
    exact ⟨P.valid hv, isDeterministic_iff.2 P.deterministic⟩

/-- **Determinizing again changes nothing**: the result is valid and deterministic, and with any
limit it stays as it is, each declared state standing for itself. -/
theorem determinize_again {a : Automaton} {limit : Nat} {d : Determinized}
    (h : a.determinize limit = .ok d) :
    d.automaton.validate = .ok () ∧ d.automaton.isDeterministic = true ∧
      ∀ limit', ∃ e, d.automaton.determinize limit' = .ok e ∧ e.automaton = d.automaton ∧
        ∀ q s, e.composites.get? q = some s ↔
          d.automaton.isDeclared q = true ∧ s = .singleton q := by
  obtain ⟨hv, hd⟩ := valid_deterministic_determinize h
  refine ⟨validate_eq_ok_iff.2 hv, hd, fun limit' => ?_⟩
  exact ⟨_, determinize_of_deterministic hv hd limit', rfl, fun q s => get?_selfComposites⟩

theorem determinize_again_forked :
    ∃ d, forked.determinize 4 = .ok d ∧ d.automaton.isDeterministic = true ∧
      ∃ e, d.automaton.determinize 0 = .ok e ∧ e.automaton = d.automaton := by
  obtain ⟨d, hd⟩ := determinize_forked
  obtain ⟨-, hdet, hagain⟩ := determinize_again hd
  obtain ⟨e, he, heq, -⟩ := hagain 0
  exact ⟨d, hd, hdet, e, he, heq⟩

end Automaton

end FiniteAutomata
