import FiniteAutomata.Proofs.Subset.ReachableSubsets

/-!
# Determinization keeps the language

A word is read by the automaton of the reachable subsets in the state of the set that it is read
with by the original automaton. A set without members may be among them, where an entry has no
destinations: it accepts nothing, like the reading that stops there.

Main theorem `accepts_determinize`: whenever an automaton is determinized, the result accepts exactly
the words that it accepts.
-/
namespace FiniteAutomata

variable {a : Automaton} {d : Determinized}

theorem IsSubsetAutomaton.step_eq_some (S : IsSubsetAutomaton a d) {q : Nat} {s : StateSet} {c : Char}
    (hq : d.composites.get? q = some s) (h : ∃ m ∈ s, ∃ t, a.successors? m c = some t) :
    ∃ r, d.automaton.step (.singleton q) c = .singleton r ∧
      d.composites.get? r = some (a.step s c) := by
  obtain ⟨r, u, hr, hu, hmem⟩ := S.successors q s c hq h
  refine ⟨r, StateSet.ext fun p => ?_, ?_⟩
  · rw [Automaton.mem_step]
    constructor
    · rintro ⟨q', hq', t, ht, hp⟩
      obtain rfl := StateSet.mem_singleton.1 hq'
      rw [hr] at ht
      cases ht
      exact hp
    · intro hp
      exact ⟨q, StateSet.mem_singleton.2 rfl, _, hr, hp⟩
  · rw [hu]
    refine congrArg some (StateSet.ext fun p => ?_)
    rw [hmem, Automaton.mem_step]

theorem IsSubsetAutomaton.step_eq_empty (S : IsSubsetAutomaton a d) {q : Nat} {s : StateSet}
    {c : Char} (hq : d.composites.get? q = some s)
    (h : ¬ ∃ m ∈ s, ∃ t, a.successors? m c = some t) :
    d.automaton.step (.singleton q) c = ∅ ∧ a.step s c = ∅ := by
  have hnone : ∀ m ∈ s, a.successors? m c = none := by
    intro m hm
    rw [Option.eq_none_iff_forall_ne_some]
    intro t ht
    exact h ⟨m, hm, t, ht⟩
  constructor
  · refine StateSet.ext fun p => iff_of_false ?_ (StateSet.not_mem_empty p)
    rw [Automaton.mem_step]
    rintro ⟨q', hq', t, ht, -⟩
    obtain rfl := StateSet.mem_singleton.1 hq'
    rw [S.no_successors _ s c hq hnone] at ht
    cases ht
  · refine StateSet.ext fun p => iff_of_false ?_ (StateSet.not_mem_empty p)
    rw [Automaton.mem_step]
    rintro ⟨m, hm, t, ht, -⟩
    exact h ⟨m, hm, t, ht⟩

/-- From the state of a set the result accepts what the original automaton accepts from the set. -/
theorem IsSubsetAutomaton.acceptsFrom (S : IsSubsetAutomaton a d) (w : List Char) :
    ∀ q s, d.composites.get? q = some s →
      d.automaton.acceptsFrom (.singleton q) w = a.acceptsFrom s w := by
  induction w with
  | nil =>
    intro q s hq
    rw [Bool.eq_iff_iff]
    have h : d.automaton.acceptsFrom (.singleton q) [] = d.automaton.isFinal q := by
      simp [Automaton.acceptsFrom, StateSet.singleton]
    rw [h, S.final q s hq, Automaton.acceptsFrom, List.any_eq_true]
    rfl
  | cons c w ih =>
    intro q s hq
    rw [Automaton.acceptsFrom_cons, Automaton.acceptsFrom_cons, S.alphabet]
    by_cases h : ∃ m ∈ s, ∃ t, a.successors? m c = some t
    · obtain ⟨r, hr, hcomp⟩ := S.step_eq_some hq h
      rw [hr, ih r _ hcomp]
      have hne : (StateSet.singleton r).isEmpty = false := rfl
      rw [hne, Bool.not_false, Bool.true_and]
      by_cases he : a.step s c = ∅
      · rw [he, Automaton.acceptsFrom_empty, Bool.and_false, Bool.and_false, Bool.and_false]
      · have hf : (a.step s c).isEmpty = false := by
          rwa [← Bool.not_eq_true, StateSet.isEmpty_iff]
        rw [hf, Bool.not_false, Bool.true_and]
    · obtain ⟨hd, ha⟩ := S.step_eq_empty hq h
      rw [hd, ha, StateSet.isEmpty_iff.2 rfl, Bool.not_true, Bool.false_and, Bool.false_and]

theorem Construction.accepts_construct {limit : Nat} {k : Construction}
    (h : Construction.construct a limit = .ok k) (w : List Char) : k.result.accepts w = a.accepts w := by
  obtain ⟨found, P, O⟩ := Construction.progress_construct h
  have S := P.isSubsetAutomaton O
  exact S.acceptsFrom w _ _ S.initial

namespace Automaton

/-- **Determinization keeps the language**, through the construction as well as where the automaton
is deterministic already. -/
theorem accepts_determinize {limit : Nat} (h : a.determinize limit = .ok d) (w : List Char) :
    d.automaton.accepts w = a.accepts w := by
  obtain ⟨-, ⟨-, rfl⟩ | ⟨-, k, hk, rfl⟩⟩ := determinize_cases h
  · rfl
  · exact Construction.accepts_construct hk w

theorem accepts_determinize_forked :
    ∃ d, forked.determinize 4 = .ok d ∧ d.automaton.accepts ['b'] = true := by
  obtain ⟨d, hd⟩ := determinize_forked
  have hw : forked.accepts ['b'] = true := by decide
  exact ⟨d, hd, (accepts_determinize hd ['b']).trans hw⟩

end Automaton

end FiniteAutomata
