import FiniteAutomata.Proofs.Automaton.Validity

/-!
# Transitions one by one

An automaton that is built by adding transitions has no empty row and no empty set of targets
(`Filled`). Its table is then determined by its single transitions (`Filled.transitions_eq`), so the
order in which they were added does not matter.
-/
namespace FiniteAutomata.Automaton

/-- The automaton has the transition. -/
def HasEdge (a : Automaton) (q : Nat) (label : Label) (r : Nat) : Prop :=
  ∃ targets, a.targets? q label = some targets ∧ r ∈ targets

/-- The labels and targets of a row. -/
def rowPairs (row : Row) : List (Label × Nat) :=
  row.entries.flatMap fun e => e.2.toList.map fun r => (e.1, r)

/-- No row and no set of targets is empty. -/
structure Filled (a : Automaton) : Prop where
  rows : ∀ q row, a.row? q = some row → ∃ label targets, row.get? label = some targets
  targets : ∀ q label targets, a.targets? q label = some targets → ∃ r, r ∈ targets

/-- The transitions of a list added to an automaton. -/
def addEdges (a : Automaton) (es : List (Nat × Label × Nat)) : Automaton :=
  es.foldl (fun b e => b.addTransition e.1 e.2.1 e.2.2) a

variable {a b : Automaton} {q r : Nat} {label : Label}

theorem mem_edges : (q, label, r) ∈ a.edges ↔ a.HasEdge q label r := by
  simp only [edges, List.mem_flatMap, List.mem_map, Prod.mk.injEq]
  constructor
  · rintro ⟨⟨p, row⟩, hrow, ⟨m, targets⟩, ht, s, hs, rfl, rfl, rfl⟩
    refine ⟨targets, targets?_eq_some.2 ⟨row, ?_, ?_⟩, hs⟩
    · exact Table.get?_eq_some.2 hrow
    · exact Table.get?_eq_some.2 ht
  · rintro ⟨targets, ht, hr⟩
    obtain ⟨row, hrow, hl⟩ := targets?_eq_some.1 ht
    exact ⟨(q, row), Table.get?_eq_some.1 hrow, (label, targets), Table.get?_eq_some.1 hl, r, hr,
      rfl, rfl, rfl⟩

theorem edges_eq (a : Automaton) :
    a.edges = a.transitions.entries.flatMap fun e => (rowPairs e.2).map fun p => (e.1, p.1, p.2) := by
  simp only [edges, rowPairs, List.map_flatMap, List.map_map]
  rfl

/-- A transition of a valid automaton has a symbol of the alphabet and a declared target. -/
theorem Valid.of_hasEdge (h : a.Valid) (he : a.HasEdge q label r) :
    ∃ c, label = some c ∧ a.alphabet.contains c = true ∧ r ∈ a.states := by
  obtain ⟨targets, ht, hr⟩ := he
  obtain ⟨c, hc, hcont, hd⟩ := h.labels q label targets ht
  exact ⟨c, hc, hcont, hd r hr⟩

/-! ## Adding transitions -/

theorem hasEdge_addTransition {p s : Nat} {m : Label} :
    (a.addTransition q label r).HasEdge p m s ↔
      a.HasEdge p m s ∨ p = q ∧ m = label ∧ s = r := by
  unfold HasEdge
  by_cases h : p = q ∧ m = label
  · obtain ⟨rfl, rfl⟩ := h
    rw [targets?_addTransition_self]
    cases a.targets? p m <;> simp [or_comm]
  · rw [targets?_addTransition_of_ne a h]
    have : ¬ (p = q ∧ m = label ∧ s = r) := fun e => h ⟨e.1, e.2.1⟩
    simp [this]

theorem Filled.addTransition (h : a.Filled) (q : Nat) (label : Label) (r : Nat) :
    (a.addTransition q label r).Filled := by
  refine ⟨fun p row hrow => ?_, fun p m targets ht => ?_⟩
  · by_cases hp : p = q
    · subst hp
      rw [row?_addTransition_self, Option.some.injEq] at hrow
      subst hrow
      exact ⟨label, _, Table.get?_upsert_self _ _ _ _⟩
    · rw [row?_addTransition_of_ne a hp] at hrow
      exact h.rows p row hrow
  · by_cases hp : p = q ∧ m = label
    · obtain ⟨rfl, rfl⟩ := hp
      rw [targets?_addTransition_self, Option.some.injEq] at ht
      subst ht
      exact ⟨r, StateSet.mem_insert.2 (Or.inl rfl)⟩
    · rw [targets?_addTransition_of_ne a hp] at ht
      exact h.targets p m targets ht

theorem addEdges_cons (a : Automaton) (e : Nat × Label × Nat) (es : List (Nat × Label × Nat)) :
    a.addEdges (e :: es) = (a.addTransition e.1 e.2.1 e.2.2).addEdges es := rfl

theorem addEdges_append (a : Automaton) (es fs : List (Nat × Label × Nat)) :
    a.addEdges (es ++ fs) = (a.addEdges es).addEdges fs := List.foldl_append

/-- Adding transitions changes nothing else. -/
theorem addEdges_eq (a : Automaton) (es : List (Nat × Label × Nat)) :
    a.addEdges es = { a with transitions := (a.addEdges es).transitions } := by
  induction es generalizing a with
  | nil => rfl
  | cons e es ih =>
    rw [addEdges_cons, ih]
    rfl

theorem names_addEdges (a : Automaton) (es : List (Nat × Label × Nat)) :
    (a.addEdges es).names = a.names := by rw [addEdges_eq]

theorem hasEdge_addEdges {es : List (Nat × Label × Nat)} :
    (a.addEdges es).HasEdge q label r ↔ a.HasEdge q label r ∨ (q, label, r) ∈ es := by
  induction es generalizing a with
  | nil => simp [addEdges]
  | cons e es ih =>
    rw [addEdges_cons, ih, hasEdge_addTransition, List.mem_cons, or_assoc, Prod.ext_iff, Prod.ext_iff]

theorem Filled.addEdges (h : a.Filled) (es : List (Nat × Label × Nat)) : (a.addEdges es).Filled := by
  induction es generalizing a with
  | nil => exact h
  | cons e es ih => exact ih (h.addTransition e.1 e.2.1 e.2.2)

theorem filled_of_transitions (h : a.transitions = ∅) : a.Filled := by
  have hrow : ∀ q, a.row? q = none := by
    intro q
    rw [row?, h, Table.get?_empty]
  refine ⟨fun q row hr => ?_, fun q label targets ht => ?_⟩
  · rw [hrow] at hr
    cases hr
  · rw [targets?, hrow] at ht
    cases ht

/-! ## What determines a table -/

theorem Filled.targets?_eq (ha : a.Filled)
    (h : ∀ q label r, a.HasEdge q label r ↔ b.HasEdge q label r) {targets : StateSet}
    (ht : a.targets? q label = some targets) : b.targets? q label = some targets := by
  obtain ⟨r, hr⟩ := ha.targets q label targets ht
  obtain ⟨targets', ht', hr'⟩ := (h q label r).1 ⟨targets, ht, hr⟩
  have e : targets = targets' := by
    ext s
    constructor
    · intro hs
      obtain ⟨u, hu, hsu⟩ := (h q label s).1 ⟨targets, ht, hs⟩
      exact Option.some.inj (hu.symm.trans ht') ▸ hsu
    · intro hs
      obtain ⟨u, hu, hsu⟩ := (h q label s).2 ⟨targets', ht', hs⟩
      exact Option.some.inj (hu.symm.trans ht) ▸ hsu
  rw [e, ht']

/-- **A table without empty rows and sets is determined by its transitions.** -/
theorem Filled.transitions_eq (ha : a.Filled) (hb : b.Filled)
    (h : ∀ q label r, a.HasEdge q label r ↔ b.HasEdge q label r) : a.transitions = b.transitions := by
  have htargets : ∀ q label, a.targets? q label = b.targets? q label := by
    intro q label
    exact Option.ext fun targets => ⟨ha.targets?_eq h, hb.targets?_eq fun p m r => (h p m r).symm⟩
  -- a row of one table has a label, which the other table then has in the same row
  have hrow : ∀ {a b : Automaton}, a.Filled → (∀ q label, a.targets? q label = b.targets? q label) →
      ∀ {q row}, a.row? q = some row → b.row? q = some row := by
    intro a b ha htargets q row hr
    obtain ⟨label, targets, hl⟩ := ha.rows q row hr
    have ht := htargets q label
    rw [targets?_eq_some.2 ⟨row, hr, hl⟩] at ht
    obtain ⟨row', hr', -⟩ := targets?_eq_some.1 ht.symm
    have e : row = row' := Table.ext_get? fun m => by
      have hm := htargets q m
      rwa [targets?, targets?, hr, hr', Option.bind_some, Option.bind_some] at hm
    rw [e, hr']
  refine Table.ext_get? fun q => Option.ext fun row => ⟨?_, ?_⟩
  · exact hrow ha htargets
  · exact hrow hb fun p m => (htargets p m).symm

end FiniteAutomata.Automaton
