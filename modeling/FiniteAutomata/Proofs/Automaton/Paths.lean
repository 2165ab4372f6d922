import FiniteAutomata.Proofs.Automaton.Validity

/-!
# Words that lead from state to state

A word leads from a state to another when its symbols label a chain of transitions between them. Main
statement `acceptsFrom_iff`: a word is accepted when all its symbols are in the alphabet and it leads to a
final state.
-/
namespace FiniteAutomata.Automaton

/-- The word leads from the first state to the second, symbol by symbol. -/
inductive Leads (a : Automaton) : Nat → List Char → Nat → Prop where
  | refl (q : Nat) : Leads a q [] q
  | step {q r t : Nat} {c : Char} {w : List Char} {s : StateSet} :
      a.successors? q c = some s → r ∈ s → Leads a r w t → Leads a q (c :: w) t

/-- A word that leads to a state goes on with each of its transitions. -/
theorem Leads.snoc {a : Automaton} {p q r : Nat} {w : List Char} {c : Char} {s : StateSet}
    (h : a.Leads p w q) (hs : a.successors? q c = some s) (hr : r ∈ s) :
    a.Leads p (w ++ [c]) r := by
  induction h with
  | refl q => exact .step hs hr (.refl r)
  | step h₁ h₂ _ ih => exact .step h₁ h₂ (ih hs)

theorem leads_nil {a : Automaton} {q r : Nat} : a.Leads q [] r ↔ q = r := by
  constructor
  · intro h
    cases h
    rfl
  · rintro rfl
    exact .refl q

theorem leads_cons {a : Automaton} {q r : Nat} {c : Char} {w : List Char} :
    a.Leads q (c :: w) r ↔ ∃ s t, a.successors? q c = some s ∧ t ∈ s ∧ a.Leads t w r := by
  constructor
  · intro h
    cases h with
    | step hs ht h => exact ⟨_, _, hs, ht, h⟩
  · rintro ⟨s, t, hs, ht, h⟩
    exact .step hs ht h

/-- **A word is accepted exactly if its symbols are in the alphabet and it leads to a final state.** -/
theorem acceptsFrom_iff {a : Automaton} {s : StateSet} {w : List Char} :
    a.acceptsFrom s w = true ↔
      (∀ c ∈ w, a.alphabet.contains c = true) ∧ ∃ q ∈ s, ∃ r ∈ a.finals, a.Leads q w r := by
  induction w generalizing s with
  | nil =>
    rw [acceptsFrom, List.any_eq_true]
    simp [leads_nil, isFinal]
  | cons c w ih =>
    have hstep : (∃ t ∈ a.step s c, ∃ r ∈ a.finals, a.Leads t w r) ↔
        ∃ q ∈ s, ∃ r ∈ a.finals, a.Leads q (c :: w) r := by
      simp only [mem_step, leads_cons]
      grind
    -- the test for the empty set is implied by the rest
    have hne : (∃ t ∈ a.step s c, ∃ r ∈ a.finals, a.Leads t w r) → (a.step s c).isEmpty = false := by
      rintro ⟨t, ht, -⟩
      rw [← Bool.not_eq_true, StateSet.isEmpty_iff]
      intro he
      exact StateSet.not_mem_empty t (he ▸ ht)
    rw [acceptsFrom_cons, Bool.and_eq_true, Bool.and_eq_true, ih, List.forall_mem_cons, ← hstep]
    constructor
    · rintro ⟨hc, -, hw, ht⟩
      exact ⟨⟨hc, hw⟩, ht⟩
    · rintro ⟨⟨hc, hw⟩, ht⟩
      exact ⟨hc, by rw [hne ht]; rfl, hw, ht⟩

/-- A word that leads somewhere in a valid automaton has symbols of the alphabet only. -/
theorem Valid.contains_of_leads {a : Automaton} (hv : a.Valid) {q r : Nat} {w : List Char}
    (h : a.Leads q w r) : ∀ c ∈ w, a.alphabet.contains c = true := by
  induction h with
  | refl q => simp
  | step hs hr h ih =>
    obtain ⟨d, hd, hcont, -⟩ := hv.labels _ _ _ hs
    obtain rfl := Option.some.inj hd
    exact List.forall_mem_cons.2 ⟨hcont, ih⟩

/-- A valid automaton accepts the words that lead to a final state. -/
theorem Valid.accepts_iff {a : Automaton} (hv : a.Valid) {w : List Char} :
    a.accepts w = true ↔ ∃ r ∈ a.finals, a.Leads a.initial w r := by
  rw [accepts, acceptsFrom_iff]
  simp only [StateSet.mem_singleton, exists_eq_left]
  refine and_iff_right_of_imp ?_
  rintro ⟨r, -, h⟩
  exact hv.contains_of_leads h

end FiniteAutomata.Automaton
