import FiniteAutomata.Proofs.Automaton.Paths
import FiniteAutomata.Proofs.Except
import FiniteAutomata.Proofs.Subset.Progress
import FiniteAutomata.Subset.Determinization

/-!
# The automaton of the reachable subsets

A valid automaton that is not deterministic is turned into the automaton whose states are the sets
of states that its words reach together. Main theorem `isSubsetAutomaton_determinize`: whenever the
construction stays within its limit, the result is that automaton, without a set too many or too few.
-/
namespace FiniteAutomata

/-- The result is the automaton of the sets of states of `a` that are reached from the set of its
initial state. -/
structure IsSubsetAutomaton (a : Automaton) (d : Determinized) : Prop where
  alphabet : d.automaton.alphabet = a.alphabet
  /-- Exactly the declared states stand for a set. -/
  declared : ∀ q, d.automaton.isDeclared q = true ↔ ∃ s, d.composites.get? q = some s
  /-- No set has two states. -/
  injective : ∀ p q s, d.composites.get? p = some s → d.composites.get? q = some s → p = q
  initial : d.composites.get? d.automaton.initial = some (.singleton a.initial)
  /-- Where some member has an entry for the symbol, the destination stands for the union of the
  destinations of all members. -/
  successors : ∀ q s c, d.composites.get? q = some s →
    (∃ m ∈ s, ∃ t, a.successors? m c = some t) →
    ∃ r u, d.automaton.successors? q c = some (.singleton r) ∧ d.composites.get? r = some u ∧
      ∀ p, p ∈ u ↔ ∃ m ∈ s, ∃ t, a.successors? m c = some t ∧ p ∈ t
  /-- Where no member has an entry for the symbol, neither has the state of the set. -/
  no_successors : ∀ q s c, d.composites.get? q = some s →
    (∀ m ∈ s, a.successors? m c = none) → d.automaton.successors? q c = none
  final : ∀ q s, d.composites.get? q = some s →
    (d.automaton.isFinal q = true ↔ ∃ m ∈ s, a.isFinal m = true)
  reached : ∀ q, d.automaton.isDeclared q = true →
    ∃ w, d.automaton.Leads d.automaton.initial w q

namespace Construction

variable {a : Automaton} {k : Construction} {found : List StateSet}

/-- The transitions of a finished construction, by the sets they lead from and to. -/
theorem Progress.successors?_iff (P : Progress a k found found.length (Processed a found found.length))
    {q : Nat} {c : Char} {s t : StateSet} (hq : found[q]? = some s) :
    k.result.successors? q c = some t ↔
      (∃ m ∈ s, ∃ u, a.successors? m c = some u) ∧
        ∃ r, found[r]? = some (a.step s c) ∧ t = .singleton r := by
  refine (P.edges q (some c) t).trans ?_
  constructor
  · rintro ⟨d, u, r, hd, ⟨-, m, hm, hu⟩, hr, rfl⟩
    cases hd
    obtain rfl := Option.some.inj (hq.symm.trans hm)
    obtain ⟨rfl, hex⟩ := Automaton.get?_merged_eq_some.1 hu
    exact ⟨hex, r, hr, rfl⟩
  · rintro ⟨hex, r, hr, rfl⟩
    have hlt := (List.getElem?_eq_some_iff.1 hq).1
    exact ⟨c, _, r, rfl, ⟨hlt, s, hq, Automaton.get?_merged_eq_some.2 ⟨rfl, hex⟩⟩, hr, rfl⟩

/-- Every composite state is reached, by induction on the order in which the sets were met. -/
theorem Progress.leads (P : Progress a k found found.length (Processed a found found.length))
    (O : Originates found (Processed a found found.length)) :
    ∀ q, q < found.length → ∃ w, k.result.Leads 0 w q := by
  intro q
  induction q using Nat.strongRecOn with
  | ind q ih =>
    intro hq
    rcases Nat.eq_zero_or_pos q with rfl | hpos
    · exact ⟨[], .refl 0⟩
    · obtain ⟨p, c, s, hp, hw, hs⟩ := O q hpos hq
      obtain ⟨w, hlead⟩ := ih p hp (Nat.lt_trans hp hq)
      have ht : k.result.successors? p c = some (.singleton q) :=
        (P.edges p (some c) _).2 ⟨c, s, q, rfl, hw, hs, rfl⟩
      exact ⟨w ++ [c], hlead.snoc ht (StateSet.mem_singleton.2 rfl)⟩

theorem Progress.isSubsetAutomaton
    (P : Progress a k found found.length (Processed a found found.length))
    (O : Originates found (Processed a found found.length)) :
    IsSubsetAutomaton a ⟨k.result, k.composites⟩ := by
  have hdeclared : ∀ q, k.result.isDeclared q = true ↔ q < found.length := by
    intro q
    rw [Automaton.isDeclared_iff, P.states, StateSet.mem_below]
  refine ⟨P.alphabet, ?_, ?_, ?_, ?_, ?_, ?_, ?_⟩
  · -- declared
    intro q
    rw [hdeclared]
    simp only [P.composites]
    constructor
    · intro hq
      exact ⟨found[q], List.getElem?_eq_getElem hq⟩
    · rintro ⟨s, hs⟩
      exact (List.getElem?_eq_some_iff.1 hs).1
  · -- injective
    intro p q s hp hq
    simp only [P.composites] at hp hq
    have hlt := (List.getElem?_eq_some_iff.1 hp).1
    exact (List.getElem?_inj hlt P.nodup).1 (hp.trans hq.symm)
  · -- initial
    simp only [P.composites, P.initial]
    exact P.first
  · -- successors
    intro q s c hq hex
    simp only [P.composites] at hq ⊢
    have hlt := (List.getElem?_eq_some_iff.1 hq).1
    have hw : Processed a found found.length q c (a.step s c) :=
      ⟨hlt, s, hq, Automaton.get?_merged_eq_some.2 ⟨rfl, hex⟩⟩
    obtain ⟨r, hr⟩ := List.mem_iff_getElem?.1 (P.written q c _ hw).2
    exact ⟨r, _, (P.successors?_iff hq).2 ⟨hex, r, hr, rfl⟩, hr, fun p => Automaton.mem_step⟩
  · -- no_successors
    intro q s c hq hnone
    simp only [P.composites] at hq
    rw [Option.eq_none_iff_forall_ne_some]
    intro t ht
    obtain ⟨⟨m, hm, u, hu⟩, -⟩ := (P.successors?_iff hq).1 ht
    rw [hnone m hm] at hu
    cases hu
  · -- final
    intro q s hq
    simp only [P.composites] at hq
    have hlt := (List.getElem?_eq_some_iff.1 hq).1
    rw [Automaton.isFinal, StateSet.contains_iff, P.finals]
    constructor
    · rintro ⟨-, t, ht, h⟩
      obtain rfl := Option.some.inj (hq.symm.trans ht)
      exact h
    · intro h
      exact ⟨hlt, s, hq, h⟩
  · -- reached
    intro q hq
    simp only [P.initial]
    exact P.leads O q ((hdeclared q).1 hq)

end Construction

namespace Automaton

/-- What a successful determinization has done: kept the automaton, or run the construction. -/
theorem determinize_cases {a : Automaton} {limit : Nat} {d : Determinized}
    (h : a.determinize limit = .ok d) :
    a.Valid ∧ ((a.isDeterministic = true ∧ d = ⟨a, a.selfComposites⟩) ∨
      (a.isDeterministic = false ∧ ∃ k, Construction.construct a limit = .ok k ∧
        d = ⟨k.result, k.composites⟩)) := by
  unfold determinize at h
  split at h
  · cases h
  rename_i hp
  refine ⟨problem?_eq_none_iff.1 hp, ?_⟩
  split at h
  · rename_i hd
    cases h
    exact Or.inl ⟨hd, rfl⟩
  · rename_i hd
    unfold subsetConstruction at h
    split at h
    · cases h
    · rename_i k hk
      cases h
      exact Or.inr ⟨by simpa using hd, k, hk, rfl⟩

/-- A determinized automaton that was not deterministic is the result of a construction that has processed all
the sets that it met. -/
theorem exists_progress_of_determinize {a : Automaton} {limit : Nat} {d : Determinized}
    (hn : a.isDeterministic = false) (h : a.determinize limit = .ok d) :
    a.Valid ∧ ∃ k found, d = ⟨k.result, k.composites⟩ ∧
      Construction.Progress a k found found.length (Construction.Processed a found found.length) ∧
      Construction.Originates found (Construction.Processed a found found.length) := by
  obtain ⟨hv, ⟨hd, -⟩ | ⟨-, k, hk, rfl⟩⟩ := determinize_cases h
  · rw [hn] at hd
    cases hd
  · obtain ⟨found, P, O⟩ := Construction.progress_construct hk
    exact ⟨hv, k, found, rfl, P, O⟩

/-- **The result of the construction is the automaton of the reachable subsets.** -/
theorem isSubsetAutomaton_determinize {a : Automaton} {limit : Nat} {d : Determinized}
    (hn : a.isDeterministic = false) (h : a.determinize limit = .ok d) :
    IsSubsetAutomaton a d := by
  obtain ⟨-, ⟨hd, -⟩ | ⟨-, k, hk, rfl⟩⟩ := determinize_cases h
  · rw [hn] at hd
    cases hd
  · obtain ⟨found, P, O⟩ := Construction.progress_construct hk
    exact P.isSubsetAutomaton O

/-- An automaton whose sets compete for their names, with an entry that has no destinations. -/
def forked : Automaton where
  names := ["s", "x", "xy", "xx", "y"]
  alphabet := .ofSymbols ['a', 'b']
  states := .below 5
  initial := 0
  finals := .ofList [4]
  transitions := .ofList
    [(0, .ofList [(some 'a', .ofList [1, 2]), (some 'b', .ofList [3, 4])]),
      (2, .ofList [(some 'b', ∅)])]

theorem determinize_forked : ∃ d, forked.determinize 4 = .ok d := toBool_eq_true.1 (by decide +kernel)

theorem isSubsetAutomaton_forked :
    forked.isDeterministic = false ∧ ∃ d, forked.determinize 4 = .ok d ∧ IsSubsetAutomaton forked d := by
  have hn : forked.isDeterministic = false := by decide
  obtain ⟨d, hd⟩ := determinize_forked
  exact ⟨hn, d, hd, isSubsetAutomaton_determinize hn hd⟩

end Automaton

end FiniteAutomata
