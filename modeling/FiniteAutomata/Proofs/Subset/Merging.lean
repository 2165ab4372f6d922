import FiniteAutomata.Proofs.Automaton.Validity
import FiniteAutomata.Subset.Composite

/-!
# Merged transitions

Merging the rows of the members of a set unites, for each symbol, the destinations of all members.
Main statement: a symbol is bound exactly if some member has an entry for it, and then to the set
that the members reach on it (`get?_merged_eq_some`).
-/
namespace FiniteAutomata.Automaton

/-- What is bound to a symbol once the sets with a property were merged: nothing if there is none,
their union otherwise. -/
def IsUnion (bound : Option StateSet) (P : StateSet → Prop) : Prop :=
  (bound.isSome = true ↔ ∃ t, P t) ∧ ∀ r, r ∈ bound.getD ∅ ↔ ∃ t, P t ∧ r ∈ t

theorem IsUnion.congr {bound : Option StateSet} {P Q : StateSet → Prop} (h : IsUnion bound P)
    (hPQ : ∀ t, P t ↔ Q t) : IsUnion bound Q := by
  have e : P = Q := funext fun t => propext (hPQ t)
  exact e ▸ h

theorem isUnion_none : IsUnion none fun _ => False := by
  simp [IsUnion]

/-- Only the united sets matter for what is bound. -/
theorem IsUnion.eq_some_iff {bound : Option StateSet} {P : StateSet → Prop} (h : IsUnion bound P)
    {u : StateSet} :
    bound = some u ↔ (∃ t, P t) ∧ ∀ r, r ∈ u ↔ ∃ t, P t ∧ r ∈ t := by
  constructor
  · rintro rfl
    exact ⟨h.1.1 rfl, h.2⟩
  · rintro ⟨hP, hu⟩
    obtain ⟨v, rfl⟩ := Option.isSome_iff_exists.1 (h.1.2 hP)
    refine congrArg some (StateSet.ext fun r => ?_)
    rw [hu, ← h.2, Option.getD_some]

theorem successors?_eq_some {a : Automaton} {q : Nat} {c : Char} {t : StateSet} :
    a.successors? q c = some t ↔ ∃ row, a.row? q = some row ∧ (some c, t) ∈ row.entries := by
  rw [successors?, targets?_eq_some]
  simp only [Table.get?_eq_some]

/-! ## One entry, one row, all rows -/

section Merge
variable {a : Automaton} {c : Char} {P : StateSet → Prop} {merged : Table Char StateSet}

theorem IsUnion.mergeEntry {e : Label × StateSet} (h : IsUnion (merged.get? c) P) :
    IsUnion ((mergeEntry merged e).get? c) fun t => P t ∨ e = (some c, t) := by
  obtain ⟨label, targets⟩ := e
  cases label with
  | none => exact h.congr fun t => by simp
  | some d =>
    by_cases hd : c = d
    · subst hd
      constructor
      · rw [Automaton.mergeEntry, Table.get?_upsert_self]
        exact ⟨fun _ => ⟨targets, Or.inr rfl⟩, fun _ => rfl⟩
      · intro r
        rw [Automaton.mergeEntry, Table.get?_upsert_self, Option.getD_some, StateSet.mem_union, h.2]
        constructor
        · rintro (⟨t, ht, hr⟩ | hr)
          · exact ⟨t, Or.inl ht, hr⟩
          · exact ⟨targets, Or.inr rfl, hr⟩
        · rintro ⟨t, ht | ht, hr⟩
          · exact Or.inl ⟨t, ht, hr⟩
          · cases ht; exact Or.inr hr
    · rw [Automaton.mergeEntry, Table.get?_upsert_of_ne _ hd]
      exact h.congr fun t => by simp [Ne.symm hd]

theorem IsUnion.foldl_mergeEntry {es : List (Label × StateSet)} (h : IsUnion (merged.get? c) P) :
    IsUnion ((es.foldl Automaton.mergeEntry merged).get? c) fun t => P t ∨ (some c, t) ∈ es := by
  induction es generalizing merged P with
  | nil => exact h.congr fun t => by simp
  | cons e es ih =>
    rw [List.foldl_cons]
    exact (ih h.mergeEntry).congr fun t => by rw [List.mem_cons, or_assoc, @eq_comm _ e]

theorem IsUnion.mergeRow {q : Nat} (h : IsUnion (merged.get? c) P) :
    IsUnion ((a.mergeRow merged q).get? c) fun t => P t ∨ a.successors? q c = some t := by
  simp only [successors?_eq_some]
  unfold Automaton.mergeRow
  cases a.row? q with
  | none => exact h.congr fun t => by simp
  | some row => exact h.foldl_mergeEntry.congr fun t => by simp

theorem IsUnion.foldl_mergeRow {qs : List Nat} (h : IsUnion (merged.get? c) P) :
    IsUnion ((qs.foldl a.mergeRow merged).get? c) fun t =>
      P t ∨ ∃ q ∈ qs, a.successors? q c = some t := by
  induction qs generalizing merged P with
  | nil => exact h.congr fun t => by simp
  | cons q qs ih =>
    rw [List.foldl_cons]
    exact (ih h.mergeRow).congr fun t => by simp [or_assoc]

end Merge

/--
**Merging unites the destinations of all members.** A symbol is bound exactly if some member has an
entry for it, be it one without destinations.
-/
theorem get?_merged_eq_some {a : Automaton} {s : StateSet} {c : Char} {u : StateSet} :
    (a.merged s).get? c = some u ↔
      u = a.step s c ∧ ∃ q ∈ s, ∃ t, a.successors? q c = some t := by
  have h₀ : IsUnion ((∅ : Table Char StateSet).get? c) fun _ => False := isUnion_none
  have h : IsUnion ((a.merged s).get? c) fun t => ∃ q ∈ s, a.successors? q c = some t :=
    h₀.foldl_mergeRow.congr fun t => by simp
  have hm : ∀ r, (∃ t, (∃ q ∈ s, a.successors? q c = some t) ∧ r ∈ t) ↔ r ∈ a.step s c := by
    intro r
    rw [mem_step]
    constructor
    · rintro ⟨t, ⟨q, hq, ht⟩, hr⟩; exact ⟨q, hq, t, ht, hr⟩
    · rintro ⟨q, hq, t, ht, hr⟩; exact ⟨t, ⟨q, hq, ht⟩, hr⟩
  simp only [h.eq_some_iff, hm]
  constructor
  · rintro ⟨⟨t, q, hq, ht⟩, hu⟩
    exact ⟨StateSet.ext hu, q, hq, t, ht⟩
  · rintro ⟨rfl, q, hq, t, ht⟩
    exact ⟨⟨t, q, hq, ht⟩, fun r => Iff.rfl⟩

end FiniteAutomata.Automaton
