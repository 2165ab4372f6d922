import FiniteAutomata.Automaton.Encoding
import FiniteAutomata.Proofs.Automaton.Named
import FiniteAutomata.Proofs.Description.Loading
import FiniteAutomata.Proofs.Subset.Language
import FiniteAutomata.Proofs.Subset.Sufficiency

/-!
# The composite state without members

The construction makes a transition wherever some member of a set has an entry for the symbol, be it one
without destinations. Where none of these entries has destinations, the transition leads to the empty set,
which then is a composite state like the others. Adding transitions never makes an entry without
destinations, so automata that are built or loaded have no such composite state; the decoder lets such
entries through.

Main theorem `empty_composite_iff`: which automata have the composite state without members, and that
nothing is accepted from it.
-/
namespace FiniteAutomata

namespace Automaton

variable {a : Automaton} {s : StateSet} {c : Char}

/-- The automaton is new or loaded from a text, and was then changed by operations on any handles. -/
inductive Made : Automaton → Prop where
  | new (al : Alphabet) (name : String) : Made (.new al name)
  | loaded {text : String} {a : Automaton} (h : ofDescription text = .ok a) : Made a
  | intern {a : Automaton} (h : Made a) (name : String) : Made (a.intern name)
  | addState {a : Automaton} (h : Made a) (name : String) : Made (a.addState name)
  | addFinal {a : Automaton} (h : Made a) (q : Nat) : Made (a.addFinal q)
  | addTransition {a : Automaton} (h : Made a) (q : Nat) (label : Label) (r : Nat) :
      Made (a.addTransition q label r)
  | setInitial {a : Automaton} (h : Made a) (q : Nat) : Made (a.setInitial q)

/-- **Automata that are built or loaded have no entry without destinations.** -/
theorem Made.filled (h : a.Made) : a.Filled := by
  induction h with
  | new al name => exact filled_new al name
  | loaded h =>
    obtain ⟨k, cs, htidy, -⟩ := ofDescription_tidy h
    exact htidy.filled
  | intern h name ih => exact ih.intern name
  | addState h name ih => exact ih.addState name
  | addFinal h q ih => exact ih.congr rfl
  | addTransition h q label r ih => exact ih.addTransition q label r
  | setInitial h q ih => exact ih.congr rfl

/-! ## Reaching the empty set -/

/-- Some member has an entry for the symbol, and no member has destinations on it. -/
def DeadEnd (a : Automaton) (s : StateSet) (c : Char) : Prop :=
  (∃ m ∈ s, ∃ t, a.successors? m c = some t) ∧ ∀ m ∈ s, ∀ t, a.successors? m c = some t → t = ∅

theorem reached_empty_iff : a.Reached ∅ ↔ ∃ s c, a.Reached s ∧ a.DeadEnd s c := by
  constructor
  · intro h
    generalize he : (∅ : StateSet) = e at h
    cases h with
    | initial =>
      have hm : a.initial ∈ (∅ : StateSet) := he ▸ StateSet.mem_singleton.2 rfl
      exact absurd hm (StateSet.not_mem_empty _)
    | @merge s _ c h hentry ht =>
      subst he
      refine ⟨s, c, h, hentry, fun m hm t hmt => StateSet.ext fun r => ?_⟩
      refine iff_of_false (fun hr => ?_) (StateSet.not_mem_empty r)
      exact StateSet.not_mem_empty r ((ht r).2 ⟨m, hm, t, hmt, hr⟩)
  · rintro ⟨s, c, h, hentry, hempty⟩
    refine h.merge hentry fun r => iff_of_false (StateSet.not_mem_empty r) ?_
    rintro ⟨m, hm, t, hmt, hr⟩
    rw [hempty m hm t hmt] at hr
    exact StateSet.not_mem_empty r hr

theorem Filled.exists_mem_of_reached (hf : a.Filled) (h : a.Reached s) : ∃ q, q ∈ s := by
  cases h with
  | initial => exact ⟨a.initial, StateSet.mem_singleton.2 rfl⟩
  | merge _ hentry ht =>
    obtain ⟨m, hm, t, hmt⟩ := hentry
    obtain ⟨r, hr⟩ := hf.targets m _ t hmt
    exact ⟨r, (ht r).2 ⟨m, hm, t, hmt, hr⟩⟩

end Automaton

namespace Construction

variable {a : Automaton} {k : Construction} {found : List StateSet} {q : Nat}

/-- No transition leaves the composite state without members. -/
theorem Progress.row?_of_empty (P : Progress a k found found.length (Processed a found found.length))
    (hq : found[q]? = some ∅) : k.result.row? q = none := by
  rw [Option.eq_none_iff_forall_ne_some]
  intro row hrow
  obtain ⟨label, t, ht⟩ := P.rows q row hrow
  obtain ⟨c, s, r, -, ⟨-, m, hm, hs⟩, -⟩ := (P.edges q label t).1 (Automaton.targets?_eq_some.2 ⟨row, hrow, ht⟩)
  obtain rfl := Option.some.inj (hq.symm.trans hm)
  obtain ⟨-, p, hp, -⟩ := Automaton.get?_merged_eq_some.1 hs
  exact StateSet.not_mem_empty p hp

end Construction

namespace Automaton

variable {a : Automaton} {limit : Nat} {d : Determinized}

/-- **A composite state without members is there exactly if some reached set has entries for a symbol and none
of them has destinations.** Built and loaded automata have none. It is not the initial state, no
transition leaves it and no word is accepted from it. -/
theorem empty_composite_iff (hn : a.isDeterministic = false) (h : a.determinize limit = .ok d) :
    ((∃ q, d.composites.get? q = some ∅) ↔ ∃ s c, a.Reached s ∧ a.DeadEnd s c) ∧
    (a.Made → ∀ q ∈ d.automaton.states, ∃ s, d.composites.get? q = some s ∧ ∃ m ∈ s, m ∈ a.states) ∧
    ∀ q, d.composites.get? q = some ∅ → q ≠ d.automaton.initial ∧ d.automaton.row? q = none ∧
      ∀ w, d.automaton.acceptsFrom (.singleton q) w = false := by
  obtain ⟨hv, k, found, rfl, P, O⟩ := exists_progress_of_determinize hn h
  have S := P.isSubsetAutomaton O
  refine ⟨?_, fun hmade q hq => ?_, fun q hq => ⟨?_, ?_, fun w => ?_⟩⟩
  · simp only [P.composites, ← List.mem_iff_getElem?, P.mem_found_iff O, reached_empty_iff]
  · obtain ⟨s, hs⟩ := (S.declared q).1 (isDeclared_iff.2 hq)
    have hfound : found[q]? = some s := (P.composites q).symm.trans hs
    have hreached := (P.mem_found_iff O).1 (List.mem_of_getElem? hfound)
    obtain ⟨m, hm⟩ := hmade.filled.exists_mem_of_reached hreached
    exact ⟨s, hs, m, hm, hreached.declared hv m hm⟩
  · rintro rfl
    have hempty := Option.some.inj (hq.symm.trans S.initial)
    exact StateSet.not_mem_empty a.initial (hempty ▸ StateSet.mem_singleton.2 rfl)
  · exact P.row?_of_empty ((P.composites q).symm.trans hq)
  · rw [S.acceptsFrom w q ∅ hq, acceptsFrom_empty]

/-- An automaton with two destinations for one symbol, built state by state. -/
def paired : Automaton :=
  (((Automaton.new (.ofSymbols ['a']) "p").addState "q").addTransition 0 (some 'a') 0).addTransition 0
    (some 'a') 1

theorem made_paired : paired.Made := (((Made.new _ _).addState _).addTransition _ _ _).addTransition _ _ _

theorem determinize_paired : ∃ d, paired.determinize 2 = .ok d := toBool_eq_true.1 (by decide +kernel)

/-- The automaton `forked` has the composite state without members, by the entry of a member of a reached set.
The automaton `paired` has none. -/
theorem empty_composite_forked :
    forked.isDeterministic = false ∧ paired.isDeterministic = false ∧
      (∃ d, forked.determinize 4 = .ok d ∧ ∃ q, d.composites.get? q = some ∅) ∧
      ∃ d, paired.determinize 2 = .ok d ∧
        ∀ q ∈ d.automaton.states, ∃ s, d.composites.get? q = some s ∧ ∃ m ∈ s, m ∈ paired.states := by
  have hforked : forked.isDeterministic = false := by decide
  have hpaired : paired.isDeterministic = false := by decide
  obtain ⟨d, hd⟩ := determinize_forked
  obtain ⟨e, he⟩ := determinize_paired
  have hreached : forked.Reached (.ofList [1, 2]) := by
    have hmerged : ('a', StateSet.ofList [1, 2]) ∈ (forked.merged (.singleton forked.initial)).entries := by
      decide
    exact Reached.initial.of_mem_merged hmerged
  have hdead : forked.DeadEnd (.ofList [1, 2]) 'b' := by
    refine ⟨⟨2, by decide, ∅, by decide⟩, fun m hm t ht => ?_⟩
    have hm : m = 1 ∨ m = 2 := by simpa using hm
    rcases hm with rfl | rfl
    · cases ht
    · exact (Option.some.inj ht).symm
  exact ⟨hforked, hpaired, ⟨d, hd, (empty_composite_iff hforked hd).1.2 ⟨_, 'b', hreached, hdead⟩⟩,
    e, he, (empty_composite_iff hpaired he).2.1 made_paired⟩

/-- An automaton whose only entry has no destinations. -/
def vacant : Automaton where
  names := ["p"]
  alphabet := .ofSymbols ['a']
  states := .below 1
  initial := 0
  finals := ∅
  transitions := .ofList [(0, .ofList [(some 'a', ∅)])]

/-- The decoder gives the automaton, which is valid and whose second composite state has no members. -/
theorem empty_composite_vacant :
    vacant.validate = .ok () ∧ vacant.isDeterministic = false ∧ (do
      let a ← decode? vacant.encode
      let d ← (a.determinize 2).toOption
      d.composites.get? 1) = some ∅ := by
  refine ⟨by decide, by decide, ?_⟩
  decide +kernel

end Automaton

end FiniteAutomata
