import FiniteAutomata.Proofs.Automaton.Edges
import FiniteAutomata.Proofs.Grammar.Building

/-!
# The grammar of an automaton

The grammar of an automaton is filled state by state. Its non-terminals are listed once each, that of the
initial state first (`listed_ofAutomaton`), and are the names of the initial and of the declared states
(`isDefined_ofAutomaton`). Main statement: the productions of a name are those of the declared states that
show it, in the order of their handles (`productionsOf_ofAutomaton`).
-/
namespace FiniteAutomata.Grammar

variable {a : Automaton} {g : Grammar} {q : Nat} {n p : String}

/-! ## One state -/

theorem isDefined_addState :
    (addState a g q).isDefined n = true ↔ n = a.display q ∨ g.isDefined n = true :=
  Table.contains_insert _ _ _ n

theorem nonTerminals_addState (a : Automaton) (g : Grammar) (q : Nat) :
    (addState a g q).nonTerminals =
      if g.isDefined (a.display q) then g.nonTerminals else g.nonTerminals ++ [a.display q] := rfl

/-- A state adds its name to the non-terminals unless it is among them. -/
theorem Listed.addState (h : g.Listed) (a : Automaton) (q : Nat) : (addState a g q).Listed := by
  obtain ⟨ns, hns⟩ := h.start
  by_cases hd : g.isDefined (a.display q) = true
  · have he : (Grammar.addState a g q).nonTerminals = g.nonTerminals := by
      rw [nonTerminals_addState, if_pos hd]
    refine ⟨he ▸ h.nodup, fun n => ?_, ⟨ns, he.trans hns⟩⟩
    rw [isDefined_addState, he, ← h.defined n]
    exact or_iff_right_of_imp fun e => e ▸ hd
  · have he : (Grammar.addState a g q).nonTerminals = g.nonTerminals ++ [a.display q] := by
      rw [nonTerminals_addState, if_neg hd]
    have hm : a.display q ∉ g.nonTerminals := fun hm => hd ((h.defined _).2 hm)
    refine ⟨?_, fun n => ?_, ⟨ns ++ [a.display q], ?_⟩⟩
    · rw [he]
      exact List.nodup_append.2 ⟨h.nodup, by simp, by grind⟩
    · rw [isDefined_addState, he, h.defined n]
      simp [or_comm]
    · rw [he, hns]
      rfl

theorem productionsOf_addState :
    (addState a g q).productionsOf n =
      g.productionsOf n ++ if a.display q = n then stateProductions a q else [] := by
  unfold productionsOf Grammar.addState
  by_cases hn : a.display q = n
  · subst hn
    simp
  · rw [Table.get?_upsert_of_ne _ (Ne.symm hn), if_neg hn, List.append_nil]

/-- The productions of a state are those of its transitions, and the empty one when it is final. -/
theorem mem_stateProductions : p ∈ stateProductions a q ↔
    (∃ label r, a.HasEdge q label r ∧ p = transitionText label (a.display r)) ∨ q ∈ a.finals ∧ p = "" := by
  have hmoves : (p ∈ ((a.row? q).getD ∅).entries.flatMap fun e =>
        e.2.toList.map fun r => transitionText e.1 (a.display r)) ↔
      ∃ label r, a.HasEdge q label r ∧ p = transitionText label (a.display r) := by
    simp only [List.mem_flatMap, List.mem_map]
    constructor
    · rintro ⟨⟨label, targets⟩, he, r, hr, rfl⟩
      cases hrow : a.row? q with
      | none =>
        rw [hrow] at he
        cases he
      | some row =>
        rw [hrow, Option.getD_some] at he
        have ht := Automaton.targets?_eq_some.2 ⟨row, hrow, Table.get?_eq_some.2 he⟩
        exact ⟨label, r, ⟨targets, ht, hr⟩, rfl⟩
    · rintro ⟨label, r, ⟨targets, ht, hr⟩, rfl⟩
      obtain ⟨row, hrow, hl⟩ := Automaton.targets?_eq_some.1 ht
      exact ⟨(label, targets), by simp [hrow, Table.get?_eq_some.1 hl], r, hr, rfl⟩
  unfold stateProductions
  by_cases hf : q ∈ a.finals
  · simp only [Automaton.isFinal, StateSet.contains_iff.2 hf, if_true, List.mem_append, List.mem_singleton,
      hmoves, hf, true_and]
  · have hf' : a.isFinal q = false := by rwa [Automaton.isFinal, ← Bool.not_eq_true, StateSet.contains_iff]
    simp only [hf', Bool.false_eq_true, if_false, hmoves, hf, false_and, or_false]

/-! ## All states -/

/-- The grammar of an automaton has the alphabet of the automaton, and starts with its initial state. -/
theorem ofAutomaton_eq (a : Automaton) :
    (ofAutomaton a).terminals = a.alphabet ∧ (ofAutomaton a).start = a.display a.initial :=
  List.foldlRecOn (motive := fun g : Grammar => g.terminals = a.alphabet ∧ g.start = a.display a.initial)
    a.states.toList (addState a) ⟨rfl, rfl⟩ fun _ h _ _ => ⟨h.1, h.2⟩

theorem listed_ofAutomaton (a : Automaton) : (ofAutomaton a).Listed :=
  List.foldlRecOn (motive := Listed) a.states.toList (addState a) (listed_new _ _)
    fun _ h q _ => h.addState a q

theorem isDefined_ofAutomaton :
    (ofAutomaton a).isDefined n = true ↔ n = a.display a.initial ∨ ∃ q ∈ a.states, n = a.display q := by
  have h : ∀ (qs : List Nat) (g : Grammar), (qs.foldl (addState a) g).isDefined n = true ↔
      g.isDefined n = true ∨ ∃ q ∈ qs, n = a.display q := by
    intro qs
    induction qs with
    | nil => simp
    | cons q qs ih =>
      intro g
      rw [List.foldl_cons, ih, isDefined_addState]
      grind
  have hnew : (new a.alphabet (a.display a.initial)).isDefined n = true ↔ n = a.display a.initial := by
    rw [isDefined, new, Table.contains_insert]
    refine or_iff_left ?_
    intro h
    cases h
  rw [ofAutomaton, h, hnew]
  rfl

/-- **The productions of a name are those of the declared states that show it.** -/
theorem productionsOf_ofAutomaton : (ofAutomaton a).productionsOf n =
    (a.states.toList.filter fun q => a.display q = n).flatMap (stateProductions a) := by
  have h : ∀ (qs : List Nat) (g : Grammar), (qs.foldl (addState a) g).productionsOf n =
      g.productionsOf n ++ (qs.filter fun q => a.display q = n).flatMap (stateProductions a) := by
    intro qs
    induction qs with
    | nil => simp
    | cons q qs ih =>
      intro g
      rw [List.foldl_cons, ih, productionsOf_addState, List.append_assoc, List.filter_cons]
      by_cases hq : a.display q = n <;> simp [hq]
  have hnew : (new a.alphabet (a.display a.initial)).productionsOf n = [] := by
    unfold productionsOf new
    by_cases hn : n = a.display a.initial
    · subst hn
      simp
    · simp [Table.get?_insert_of_ne _ hn]
  rw [ofAutomaton, h, hnew, List.nil_append]

theorem mem_productionsOf_ofAutomaton : p ∈ (ofAutomaton a).productionsOf n ↔
    ∃ q ∈ a.states, a.display q = n ∧ p ∈ stateProductions a q := by
  rw [productionsOf_ofAutomaton, List.mem_flatMap]
  simp only [List.mem_filter, decide_eq_true_eq, and_assoc, StateSet.mem_toList]

end FiniteAutomata.Grammar
