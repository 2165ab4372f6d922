import FiniteAutomata.Proofs.Automaton.Violations

/-!
# The first transition on the empty label

Where everything is declared and every symbol is one of the alphabet, an automaton can still have
transitions on the empty label. The check then names the least state that has one
(`WellLabelled.validate_eq_error_iff`), whatever the labels of the states before it.
-/
namespace FiniteAutomata.Automaton

/-- Everything that the automaton refers to is declared, and every label is empty or a symbol of the
alphabet. -/
structure WellLabelled (a : Automaton) : Prop extends a.Closed where
  symbols : ∀ q c targets, a.targets? q (some c) = some targets → a.alphabet.contains c = true

/-- The state has transitions on the empty label, and no lesser state does. -/
def FirstEpsilon (a : Automaton) (q : Nat) : Prop :=
  (∃ targets, a.targets? q none = some targets) ∧ ∀ r < q, a.targets? r none = none

variable {a : Automaton} {q : Nat} {e : AutomatonError}

theorem WellLabelled.sourceValid_iff (h : a.WellLabelled) : a.SourceValid q ↔ a.targets? q none = none := by
  constructor
  · intro hs
    rw [Option.eq_none_iff_forall_ne_some]
    intro targets ht
    obtain ⟨c, hc, -⟩ := hs.labels none targets ht
    cases hc
  · intro hn
    refine ⟨h.sources q, fun label targets ht => ?_⟩
    cases label with
    | none =>
      rw [hn] at ht
      cases ht
    | some c => exact ⟨c, rfl, h.symbols q c targets ht, h.targets q _ targets ht⟩

/-- Only transitions on the empty label keep the automaton from being valid. -/
theorem WellLabelled.valid_iff (h : a.WellLabelled) : a.Valid ↔ ∀ q, a.targets? q none = none := by
  rw [Automaton.valid_iff]
  constructor
  · rintro ⟨-, -, hs⟩ q
    exact h.sourceValid_iff.1 (hs q)
  · exact fun hn => ⟨h.initial, h.finals, fun q => h.sourceValid_iff.2 (hn q)⟩

/-- A state is reported for its transitions on the empty label. -/
theorem WellLabelled.sourceViolation_iff (h : a.WellLabelled) : a.SourceViolation q e ↔
    (∃ targets, a.targets? q none = some targets) ∧ e = .epsilonTransition (a.display q) := by
  constructor
  · intro hv
    cases hv with
    | undeclared hrow hq => exact absurd (h.sources q _ hrow) hq
    | label _ hl _ =>
      cases hl with
      | epsilon ht => exact ⟨⟨_, ht⟩, rfl⟩
      | symbol ht hc =>
        rw [h.symbols q _ _ ht] at hc
        cases hc
      | target ht _ hr => exact absurd (h.targets q _ _ ht _ hr.mem) hr.undeclared
  · rintro ⟨⟨targets, ht⟩, rfl⟩
    obtain ⟨row, hrow, -⟩ := targets?_eq_some.1 ht
    exact .label (h.sources q row hrow) (.epsilon ht) fun m hm => absurd hm Option.not_lt_none

/-- **The check names the least state with a transition on the empty label.** -/
theorem WellLabelled.validate_eq_error_iff (h : a.WellLabelled) :
    a.validate = .error e ↔ ∃ q, a.FirstEpsilon q ∧ e = .epsilonTransition (a.display q) := by
  rw [validate_eq_error, problem?_eq_some]
  constructor
  · intro hv
    cases hv with
    | initial hi => exact absurd h.initial hi
    | final _ hq => exact absurd (h.finals _ hq.mem) hq.undeclared
    | @source q e _ _ hv hleast =>
      obtain ⟨hq, rfl⟩ := h.sourceViolation_iff.1 hv
      exact ⟨q, ⟨hq, fun r hr => h.sourceValid_iff.1 (hleast r hr)⟩, rfl⟩
  · rintro ⟨q, ⟨hq, hleast⟩, rfl⟩
    exact .source h.initial h.finals (h.sourceViolation_iff.2 ⟨hq, rfl⟩)
      fun p hp => h.sourceValid_iff.2 (hleast p hp)

end FiniteAutomata.Automaton
