import FiniteAutomata.Proofs.Automaton.Validity

/-!
# The first violation

The check goes through an automaton in a fixed order: the initial state, the final states, then the sources
by their handles, and at a source the labels by their symbols, after the empty label. It passes an automaton
when nothing is wrong anywhere, and else reports what is wrong at the first place. A symbol is one of the
alphabet when the alphabet contains it; where the ranges of the alphabet are apart, these are the symbols that
it lists (`Alphabet.contains_iff_mem_symbols`).

Main theorem `validate_outcome`: when the check succeeds, which error it reports when it fails, and that a
valid automaton reads every word by sets of declared states.
-/
namespace FiniteAutomata

/-- Labels are compared by their symbols, and the empty label is less than all others. -/
theorem compare_label {l m : Label} : compare l m = .lt ↔ l < m := by
  cases l with
  | none =>
    cases m with
    | none => exact iff_of_false nofun id
    | some d => exact iff_of_true rfl trivial
  | some c =>
    cases m with
    | none => exact iff_of_false nofun id
    | some d => exact compareOfLessAndEq_eq_lt

namespace Automaton

variable {a : Automaton} {q : Nat} {label : Label} {s targets : StateSet} {row : Row} {e : AutomatonError}

/-! ## Places -/

/-- The member of the set is not declared, and all lesser ones are. -/
structure LeastUndeclared (a : Automaton) (s : StateSet) (q : Nat) : Prop where
  mem : q ∈ s
  undeclared : q ∉ a.states
  least : ∀ p ∈ s, p < q → p ∈ a.states

/-- The transitions of the state on the label have a symbol of the alphabet and declared targets. -/
def LabelValid (a : Automaton) (q : Nat) (label : Label) : Prop :=
  ∀ targets, a.targets? q label = some targets →
    ∃ c, label = some c ∧ a.alphabet.contains c = true ∧ ∀ r ∈ targets, r ∈ a.states

/-- The state is declared if it is the source of a row, and nothing is wrong with its labels. -/
structure SourceValid (a : Automaton) (q : Nat) : Prop where
  declared : ∀ row, a.row? q = some row → q ∈ a.states
  labels : ∀ label, a.LabelValid q label

/-- What is wrong with the transitions of the state on the label. -/
inductive LabelViolation (a : Automaton) (q : Nat) : Label → AutomatonError → Prop where
  | epsilon {targets : StateSet} (h : a.targets? q none = some targets) :
      LabelViolation a q none (.epsilonTransition (a.display q))
  | symbol {c : Char} {targets : StateSet} (h : a.targets? q (some c) = some targets)
      (hc : a.alphabet.contains c = false) :
      LabelViolation a q (some c) (.malformed (.unknownSymbol (a.display q) c))
  | target {c : Char} {targets : StateSet} {r : Nat} (h : a.targets? q (some c) = some targets)
      (hc : a.alphabet.contains c = true) (hr : a.LeastUndeclared targets r) :
      LabelViolation a q (some c) (.malformed (.undeclaredTarget (a.display q) (a.display r)))

/-- What is wrong with the state as a source: that it is not declared, or else what is wrong with the first of
its labels that has something wrong. -/
inductive SourceViolation (a : Automaton) (q : Nat) : AutomatonError → Prop where
  | undeclared {row : Row} (h : a.row? q = some row) (hq : q ∉ a.states) :
      SourceViolation a q (.malformed (.undeclaredSource (a.display q)))
  | label {label : Label} {e : AutomatonError} (hq : q ∈ a.states) (h : a.LabelViolation q label e)
      (hleast : ∀ m < label, a.LabelValid q m) : SourceViolation a q e

/-- What is wrong at the first place that has something wrong. -/
inductive FirstViolation (a : Automaton) : AutomatonError → Prop where
  | initial (h : a.initial ∉ a.states) :
      FirstViolation a (.malformed (.undeclaredInitial (a.display a.initial)))
  | final {q : Nat} (hi : a.initial ∈ a.states) (h : a.LeastUndeclared a.finals q) :
      FirstViolation a (.malformed (.undeclaredFinal (a.display q)))
  | source {q : Nat} {e : AutomatonError} (hi : a.initial ∈ a.states) (hf : ∀ p ∈ a.finals, p ∈ a.states)
      (h : a.SourceViolation q e) (hleast : ∀ p < q, a.SourceValid p) : FirstViolation a e

theorem valid_iff : a.Valid ↔
    a.initial ∈ a.states ∧ (∀ q ∈ a.finals, q ∈ a.states) ∧ ∀ q, a.SourceValid q := by
  constructor
  · exact fun h => ⟨h.initial, h.finals, fun q => ⟨h.sources q, h.labels q⟩⟩
  · rintro ⟨hi, hf, hs⟩
    exact ⟨hi, hf, fun q => (hs q).declared, fun q => (hs q).labels⟩

theorem sourceValid_of_row?_eq_none (h : a.row? q = none) : a.SourceValid q := by
  refine ⟨fun row hrow => ?_, fun label targets ht => ?_⟩
  · rw [h] at hrow
    cases hrow
  · obtain ⟨row, hrow, -⟩ := targets?_eq_some.1 ht
    rw [h] at hrow
    cases hrow

theorem LabelViolation.exists_targets (h : a.LabelViolation q label e) :
    ∃ targets, a.targets? q label = some targets := by
  cases h with
  | epsilon ht => exact ⟨_, ht⟩
  | symbol ht _ => exact ⟨_, ht⟩
  | target ht _ _ => exact ⟨_, ht⟩

theorem SourceViolation.exists_row (h : a.SourceViolation q e) : ∃ row, a.row? q = some row := by
  cases h with
  | undeclared hrow _ => exact ⟨_, hrow⟩
  | label _ hv _ =>
    obtain ⟨targets, ht⟩ := hv.exists_targets
    obtain ⟨row, hrow, -⟩ := targets?_eq_some.1 ht
    exact ⟨row, hrow⟩

/-! ## What the check finds -/

theorem isDeclared_eq_false : a.isDeclared q = false ↔ q ∉ a.states := by
  rw [← Bool.not_eq_true, isDeclared_iff]

theorem find?_undeclared_eq_some :
    (s.toList.find? fun q => !a.isDeclared q) = some q ↔ a.LeastUndeclared s q := by
  rw [StateSet.find?_eq_some_of_ascending s.ascending]
  simp only [Bool.not_eq_true', Bool.not_eq_false', isDeclared_eq_false, isDeclared_iff]
  constructor
  · rintro ⟨hm, hu, hleast⟩
    exact ⟨hm, hu, hleast⟩
  · rintro ⟨hm, hu, hleast⟩
    exact ⟨hm, hu, hleast⟩

theorem labelProblem?_eq_none_iff (h : a.targets? q label = some targets) :
    a.labelProblem? q label targets = none ↔ a.LabelValid q label := by
  rw [labelProblem?_eq_none]
  constructor
  · intro hl t ht
    obtain rfl := Option.some.inj (h.symm.trans ht)
    exact hl
  · exact fun hl => hl targets h

theorem labelProblem?_eq_some (h : a.targets? q label = some targets) :
    a.labelProblem? q label targets = some e ↔ a.LabelViolation q label e := by
  constructor
  · intro he
    cases label with
    | none =>
      obtain rfl := Option.some.inj he
      exact .epsilon h
    | some c =>
      unfold labelProblem? at he
      cases hc : a.alphabet.contains c with
      | true =>
        simp only [hc, if_true] at he
        obtain ⟨r, hr, rfl⟩ := Option.map_eq_some_iff.1 he
        exact .target h hc (find?_undeclared_eq_some.1 hr)
      | false =>
        simp only [hc, Bool.false_eq_true, if_false] at he
        obtain rfl := Option.some.inj he
        exact .symbol h hc
  · intro hv
    cases hv with
    | epsilon _ => rfl
    | symbol _ hc => simp [labelProblem?, hc]
    | @target c t r ht hc hr =>
      obtain rfl := Option.some.inj (h.symm.trans ht)
      simp [labelProblem?, hc, find?_undeclared_eq_some.2 hr]

theorem rowProblem?_eq_none_iff (h : a.row? q = some row) :
    a.rowProblem? q row = none ↔ a.SourceValid q := by
  rw [rowProblem?_eq_none]
  constructor
  · rintro ⟨hq, hl⟩
    refine ⟨fun _ _ => hq, fun label targets ht => ?_⟩
    obtain ⟨row', hrow', hget⟩ := targets?_eq_some.1 ht
    obtain rfl := Option.some.inj (h.symm.trans hrow')
    exact hl label targets hget
  · intro hs
    exact ⟨hs.declared row h, fun label targets hget => hs.labels label targets (targets?_eq_some.2 ⟨row, h, hget⟩)⟩

theorem findSome?_labelProblem?_eq_some (h : a.row? q = some row) :
    (row.entries.findSome? fun d => a.labelProblem? q d.1 d.2) = some e ↔
      ∃ label, a.LabelViolation q label e ∧ ∀ m < label, a.LabelValid q m := by
  have htargets : ∀ {label targets}, row.get? label = some targets ↔ a.targets? q label = some targets := by
    intro label targets
    rw [targets?, h, Option.bind_some]
  rw [Table.findSome?_entries_eq_some]
  constructor
  · rintro ⟨label, targets, hget, he, hleast⟩
    refine ⟨label, (labelProblem?_eq_some (htargets.1 hget)).1 he, fun m hm t ht => ?_⟩
    exact (labelProblem?_eq_none_iff ht).1 (hleast m (compare_label.2 hm) t (htargets.2 ht)) t ht
  · rintro ⟨label, hv, hleast⟩
    obtain ⟨targets, ht⟩ := hv.exists_targets
    refine ⟨label, targets, htargets.2 ht, (labelProblem?_eq_some ht).2 hv, fun m hm t hget => ?_⟩
    exact (labelProblem?_eq_none_iff (htargets.1 hget)).2 (hleast m (compare_label.1 hm))

theorem rowProblem?_eq_some (h : a.row? q = some row) :
    a.rowProblem? q row = some e ↔ a.SourceViolation q e := by
  unfold rowProblem?
  by_cases hq : q ∈ a.states
  · rw [if_pos (isDeclared_iff.2 hq), findSome?_labelProblem?_eq_some h]
    constructor
    · rintro ⟨label, hv, hleast⟩
      exact .label hq hv hleast
    · intro hv
      cases hv with
      | undeclared _ hq' => exact absurd hq hq'
      | label _ hv hleast => exact ⟨_, hv, hleast⟩
  · rw [if_neg (fun hd => hq (isDeclared_iff.1 hd)), Option.some.injEq]
    constructor
    · rintro rfl
      exact .undeclared h hq
    · intro hv
      cases hv with
      | undeclared _ _ => rfl
      | label hq' _ _ => exact absurd hq' hq

theorem initialProblem?_eq_some : a.initialProblem? = some e ↔
    a.initial ∉ a.states ∧ e = .malformed (.undeclaredInitial (a.display a.initial)) := by
  unfold initialProblem?
  by_cases hi : a.initial ∈ a.states
  · simp [isDeclared_iff.2 hi, hi]
  · simp [isDeclared_eq_false.2 hi, hi, eq_comm]

theorem finalProblem?_eq_some : a.finalProblem? = some e ↔
    ∃ q, a.LeastUndeclared a.finals q ∧ e = .malformed (.undeclaredFinal (a.display q)) := by
  simp only [finalProblem?, Option.map_eq_some_iff, find?_undeclared_eq_some, @eq_comm _ e]

theorem findSome?_rowProblem?_eq_some :
    (a.transitions.entries.findSome? fun d => a.rowProblem? d.1 d.2) = some e ↔
      ∃ q, a.SourceViolation q e ∧ ∀ p < q, a.SourceValid p := by
  rw [Table.findSome?_entries_eq_some]
  constructor
  · rintro ⟨q, row, hrow, he, hleast⟩
    refine ⟨q, (rowProblem?_eq_some hrow).1 he, fun p hp => ?_⟩
    cases hr : a.row? p with
    | none => exact sourceValid_of_row?_eq_none hr
    | some r => exact (rowProblem?_eq_none_iff hr).1 (hleast p (Nat.compare_eq_lt.2 hp) r hr)
  · rintro ⟨q, hv, hleast⟩
    obtain ⟨row, hrow⟩ := hv.exists_row
    refine ⟨q, row, hrow, (rowProblem?_eq_some hrow).2 hv, fun p hp r hr => ?_⟩
    exact (rowProblem?_eq_none_iff hr).2 (hleast p (Nat.compare_eq_lt.1 hp))

/-- **The check finds the violation at the first place that has one.** -/
theorem problem?_eq_some : a.problem? = some e ↔ a.FirstViolation e := by
  have hp : a.problem? = some e ↔ a.initialProblem? = some e ∨ a.initialProblem? = none ∧
      (a.finalProblem? = some e ∨ a.finalProblem? = none ∧
        (a.transitions.entries.findSome? fun d => a.rowProblem? d.1 d.2) = some e) := by
    unfold problem?
    cases a.initialProblem? <;> cases a.finalProblem? <;> simp
  rw [hp, initialProblem?_eq_some, initialProblem?_eq_none, finalProblem?_eq_some, finalProblem?_eq_none,
    findSome?_rowProblem?_eq_some]
  constructor
  · rintro (⟨hi, rfl⟩ | ⟨hi, ⟨q, hq, rfl⟩ | ⟨hf, q, hv, hleast⟩⟩)
    · exact .initial hi
    · exact .final hi hq
    · exact .source hi hf hv hleast
  · intro hv
    cases hv with
    | initial hi => exact .inl ⟨hi, rfl⟩
    | final hi hq => exact .inr ⟨hi, .inl ⟨_, hq, rfl⟩⟩
    | source hi hf hv hleast => exact .inr ⟨hi, .inr ⟨hf, _, hv, hleast⟩⟩

theorem validate_eq_error : a.validate = .error e ↔ a.problem? = some e := by
  rw [validate]
  cases a.problem? <;> simp

/-! ## Prefixes of words -/

/-- The set of states with which reading goes on after a word, none when it stops before the end of the word. -/
def heldFrom? (a : Automaton) (s : StateSet) : List Char → Option StateSet
  | [] => some s
  | c :: w => if a.alphabet.contains c && !(a.step s c).isEmpty then a.heldFrom? (a.step s c) w else none

/-- The set of states that is held after a word that is read from the initial state. -/
def held? (a : Automaton) (w : List Char) : Option StateSet := a.heldFrom? (.singleton a.initial) w

/-- A word is read from the set that is held after its prefix. -/
theorem acceptsFrom_append (a : Automaton) (s : StateSet) (u v : List Char) :
    a.acceptsFrom s (u ++ v) = (a.heldFrom? s u).any fun t => a.acceptsFrom t v := by
  induction u generalizing s with
  | nil => rfl
  | cons c u ih =>
    rw [List.cons_append, acceptsFrom_cons, ← Bool.and_assoc, heldFrom?]
    cases a.alphabet.contains c && !(a.step s c).isEmpty with
    | true => exact (Bool.true_and _).trans (ih _)
    | false => rfl

theorem Valid.heldFrom?_declared (hv : a.Valid) {w : List Char} {t : StateSet} (hs : ∀ q ∈ s, q ∈ a.states)
    (h : a.heldFrom? s w = some t) : ∀ q ∈ t, q ∈ a.states := by
  induction w generalizing s with
  | nil => exact Option.some.inj h ▸ hs
  | cons c w ih =>
    obtain ⟨-, h⟩ := Option.ite_none_right_eq_some.1 h
    exact ih (fun q hq => hv.step_declared hq) h

/-- **The check passes exactly the valid automata, and else reports the violation at the first place that has
one**: the initial state, the least final state, or at the least source the least label. Reading a word goes on,
after each of its prefixes, with the set that is held there, in a valid automaton a set of declared states. -/
theorem validate_outcome (a : Automaton) :
    (a.validate = .ok () ↔ a.Valid) ∧
      (∀ e, a.validate = .error e ↔ a.FirstViolation e) ∧
      (∀ u v, a.accepts (u ++ v) = (a.held? u).any fun s => a.acceptsFrom s v) ∧
      (a.Valid → ∀ u s, a.held? u = some s → ∀ q ∈ s, q ∈ a.states) := by
  refine ⟨validate_eq_ok_iff, fun e => ?_, fun u v => a.acceptsFrom_append _ u v, fun hv u s hs => ?_⟩
  · rw [validate_eq_error, problem?_eq_some]
  · exact hv.heldFrom?_declared (fun q hq => StateSet.mem_singleton.1 hq ▸ hv.initial) hs

/-- An automaton of two states with a wrong label, wrong targets, a transition on the empty label and a source
that is not declared. -/
def misdirected : Automaton where
  names := ["p", "q"]
  alphabet := .ofSymbols ['a', 'b']
  states := .below 2
  initial := 0
  finals := .ofList [1]
  transitions := .ofList
    [(0, .ofList [(some 'a', .ofList [1]), (some 'b', .ofList [0, 3, 5]), (some 'z', .ofList [0])]),
      (1, .ofList [(none, .ofList [0])]), (7, ∅)]

/-- What is reported of `misdirected` is the least undeclared target of the least label at fault of its least
state. -/
theorem validate_misdirected :
    misdirected.validate = .error (.malformed (.undeclaredTarget "p" "#3")) ∧
      misdirected.FirstViolation (.malformed (.undeclaredTarget "p" "#3")) ∧ ¬ misdirected.Valid := by
  have he : misdirected.validate = .error (.malformed (.undeclaredTarget "p" "#3")) :=
    validate_eq_error.2 (by decide)
  obtain ⟨hok, herror, -⟩ := validate_outcome misdirected
  refine ⟨he, (herror _).1 he, fun hv => ?_⟩
  rw [hok.2 hv] at he
  cases he

end Automaton

end FiniteAutomata
