import FiniteAutomata.Automaton.Acceptance
import FiniteAutomata.Automaton.Validity

/-!
# What the validity check guarantees

`Valid` says what a valid automaton is without an order of checks, `Deterministic` what a deterministic
one is by its look-ups. Main statements: the check finds no problem exactly with the valid automata
(`problem?_eq_none_iff`), and reading a word with a valid automaton stays among the declared states
(`Valid.step_declared`) and need not look at the alphabet (`Valid.acceptsFrom_cons_eq`).
-/
namespace FiniteAutomata.Automaton

/-- Everything that the automaton refers to is declared, and every label is a symbol of the alphabet. -/
structure Valid (a : Automaton) : Prop where
  initial : a.initial ∈ a.states
  finals : ∀ q ∈ a.finals, q ∈ a.states
  sources : ∀ q row, a.row? q = some row → q ∈ a.states
  labels : ∀ q label targets, a.targets? q label = some targets →
    ∃ c, label = some c ∧ a.alphabet.contains c = true ∧ ∀ r ∈ targets, r ∈ a.states

/-- Everything that the automaton refers to is declared. -/
structure Closed (a : Automaton) : Prop where
  initial : a.initial ∈ a.states
  finals : ∀ q ∈ a.finals, q ∈ a.states
  sources : ∀ q row, a.row? q = some row → q ∈ a.states
  targets : ∀ q label targets, a.targets? q label = some targets → ∀ r ∈ targets, r ∈ a.states

/-- Every transition has a symbol and one destination. -/
def Deterministic (a : Automaton) : Prop :=
  ∀ q label targets, a.targets? q label = some targets →
    (∃ c, label = some c) ∧ ∃ r, targets = .singleton r

theorem isDeclared_iff {a : Automaton} {q : Nat} : a.isDeclared q = true ↔ q ∈ a.states :=
  StateSet.contains_iff

theorem targets?_eq_some {a : Automaton} {q : Nat} {label : Label} {targets : StateSet} :
    a.targets? q label = some targets ↔
      ∃ row, a.row? q = some row ∧ row.get? label = some targets := Option.bind_eq_some_iff

/-! ## The check -/

theorem find?_undeclared_eq_none {a : Automaton} {s : StateSet} :
    (s.toList.find? fun q => !a.isDeclared q) = none ↔ ∀ q ∈ s, q ∈ a.states := by
  rw [List.find?_eq_none]
  simp [isDeclared_iff]

theorem labelProblem?_eq_none {a : Automaton} {q : Nat} {label : Label} {targets : StateSet} :
    a.labelProblem? q label targets = none ↔
      ∃ c, label = some c ∧ a.alphabet.contains c = true ∧ ∀ r ∈ targets, r ∈ a.states := by
  unfold labelProblem?
  cases label with
  | none => simp
  | some c =>
    by_cases hc : a.alphabet.contains c = true
    · simp [hc, isDeclared_iff]
    · simp [hc]

theorem rowProblem?_eq_none {a : Automaton} {q : Nat} {row : Row} :
    a.rowProblem? q row = none ↔ q ∈ a.states ∧ ∀ label targets, row.get? label = some targets →
      ∃ c, label = some c ∧ a.alphabet.contains c = true ∧ ∀ r ∈ targets, r ∈ a.states := by
  unfold rowProblem?
  by_cases hq : q ∈ a.states
  · rw [if_pos (isDeclared_iff.2 hq), List.findSome?_eq_none_iff]
    constructor
    · intro h
      refine ⟨hq, fun label targets ht => ?_⟩
      exact labelProblem?_eq_none.1 (h (label, targets) (Table.get?_eq_some.1 ht))
    · rintro ⟨-, h⟩ ⟨label, targets⟩ he
      exact labelProblem?_eq_none.2 (h label targets (Table.get?_eq_some.2 he))
  · simp [hq, isDeclared_iff]

theorem initialProblem?_eq_none {a : Automaton} : a.initialProblem? = none ↔ a.initial ∈ a.states := by
  unfold initialProblem?
  by_cases h : a.initial ∈ a.states <;> simp [h, isDeclared_iff]

theorem finalProblem?_eq_none {a : Automaton} :
    a.finalProblem? = none ↔ ∀ q ∈ a.finals, q ∈ a.states := by
  rw [finalProblem?, Option.map_eq_none_iff, find?_undeclared_eq_none]

/-- **The check finds no problem exactly with the valid automata.** -/
theorem problem?_eq_none_iff {a : Automaton} : a.problem? = none ↔ a.Valid := by
  have ht : (a.transitions.entries.findSome? fun e => a.rowProblem? e.1 e.2) = none ↔
      ∀ q row, a.row? q = some row → a.rowProblem? q row = none := by
    rw [List.findSome?_eq_none_iff]
    constructor
    · intro h q row hr
      exact h (q, row) (Table.get?_eq_some.1 hr)
    · rintro h ⟨q, row⟩ he
      exact h q row (Table.get?_eq_some.2 he)
  have hp : a.problem? = none ↔ a.initialProblem? = none ∧ a.finalProblem? = none ∧
      (a.transitions.entries.findSome? fun e => a.rowProblem? e.1 e.2) = none := by
    unfold problem?
    cases a.initialProblem? <;> cases a.finalProblem? <;> simp
  rw [hp, initialProblem?_eq_none, finalProblem?_eq_none, ht]
  constructor
  · rintro ⟨h1, h2, h3⟩
    refine ⟨h1, h2, fun q row hr => (rowProblem?_eq_none.1 (h3 q row hr)).1, ?_⟩
    intro q label targets h
    obtain ⟨row, hr, hl⟩ := targets?_eq_some.1 h
    exact (rowProblem?_eq_none.1 (h3 q row hr)).2 label targets hl
  · intro h
    refine ⟨h.initial, h.finals, fun q row hr => rowProblem?_eq_none.2 ⟨h.sources q row hr, ?_⟩⟩
    intro label targets hl
    exact h.labels q label targets (targets?_eq_some.2 ⟨row, hr, hl⟩)

theorem validate_eq_ok_iff {a : Automaton} : a.validate = .ok () ↔ a.Valid := by
  rw [← problem?_eq_none_iff, validate]
  cases a.problem? <;> simp

/-- The test for determinism looks at every transition. -/
theorem isDeterministic_iff {a : Automaton} : a.isDeterministic = true ↔ a.Deterministic := by
  simp only [isDeterministic, List.all_eq_true, Bool.and_eq_true, beq_iff_eq,
    StateSet.size_eq_one_iff]
  constructor
  · intro h q label targets ht
    obtain ⟨row, hr, hl⟩ := targets?_eq_some.1 ht
    have := h (q, row) (Table.get?_eq_some.1 hr) (label, targets) (Table.get?_eq_some.1 hl)
    exact ⟨Option.isSome_iff_exists.1 this.1, this.2⟩
  · rintro h ⟨q, row⟩ he ⟨label, targets⟩ hl
    have ht := targets?_eq_some.2 ⟨row, Table.get?_eq_some.2 he, Table.get?_eq_some.2 hl⟩
    obtain ⟨hc, hr⟩ := h q label targets ht
    exact ⟨Option.isSome_iff_exists.2 hc, hr⟩

theorem Valid.closed {a : Automaton} (h : a.Valid) : a.Closed := by
  refine ⟨h.initial, h.finals, h.sources, fun q label targets ht => ?_⟩
  obtain ⟨-, -, -, hd⟩ := h.labels q label targets ht
  exact hd

/-! ## Reading with a valid automaton -/

theorem step_empty (a : Automaton) (c : Char) : a.step ∅ c = ∅ := rfl

/-- No word is accepted from no state. -/
theorem acceptsFrom_empty (a : Automaton) (w : List Char) : a.acceptsFrom ∅ w = false := by
  cases w with
  | nil => rfl
  | cons c w =>
    rw [acceptsFrom_cons, step_empty, StateSet.isEmpty_iff.2 rfl, Bool.not_true, Bool.false_and,
      Bool.and_false]

theorem Valid.step_declared {a : Automaton} (h : a.Valid) {s : StateSet} {c : Char} {r : Nat}
    (hr : r ∈ a.step s c) : r ∈ a.states := by
  obtain ⟨q, -, t, ht, hrt⟩ := mem_step.1 hr
  obtain ⟨-, -, -, hd⟩ := h.labels q (some c) t ht
  exact hd r hrt

/-- A symbol outside of the alphabet leads nowhere anyway. -/
theorem Valid.acceptsFrom_cons_eq {a : Automaton} (h : a.Valid) (s : StateSet) (c : Char)
    (w : List Char) : a.acceptsFrom s (c :: w) = a.acceptsFrom (a.step s c) w := by
  by_cases he : a.step s c = ∅
  · rw [acceptsFrom_cons, he, acceptsFrom_empty, Bool.and_false, Bool.and_false]
  · have hc : a.alphabet.contains c = true := by
      obtain ⟨r, hr⟩ := StateSet.exists_mem_of_ne_empty he
      obtain ⟨q, -, t, ht, -⟩ := mem_step.1 hr
      obtain ⟨d, hd, hc, -⟩ := h.labels q (some c) t ht
      rwa [Option.some.inj hd]
    have hf : (a.step s c).isEmpty = false := by rwa [← Bool.not_eq_true, StateSet.isEmpty_iff]
    rw [acceptsFrom_cons, hc, hf, Bool.not_false, Bool.true_and, Bool.true_and]

theorem step_congr {a b : Automaton} (h : a.transitions = b.transitions) (s : StateSet) (c : Char) :
    a.step s c = b.step s c := by
  have hs : ∀ q, a.successors? q c = b.successors? q c := by
    intro q
    simp only [successors?, targets?, row?, h]
  ext r
  simp only [mem_step, hs]

/-- Valid automata of the same final states and transitions accept the same words. -/
theorem Valid.acceptsFrom_congr {a b : Automaton} (ha : a.Valid) (hb : b.Valid)
    (hf : a.finals = b.finals) (ht : a.transitions = b.transitions) (s : StateSet) (w : List Char) :
    a.acceptsFrom s w = b.acceptsFrom s w := by
  induction w generalizing s with
  | nil =>
    have hfinal : a.isFinal = b.isFinal := by
      funext q
      rw [isFinal, hf, isFinal]
    rw [acceptsFrom, hfinal, acceptsFrom]
  | cons c w ih => rw [ha.acceptsFrom_cons_eq, hb.acceptsFrom_cons_eq, step_congr ht, ih]

end FiniteAutomata.Automaton
