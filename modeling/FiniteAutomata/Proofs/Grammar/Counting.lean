import Mathlib.Data.List.Basic
import Mathlib.Data.List.Perm.Basic
import FiniteAutomata.Proofs.Except
import FiniteAutomata.Proofs.Grammar.Mirroring

/-!
# How many productions an automaton has

The grammar of an automaton files the productions of its states under their names, so the productions of
states of one name stand together, in a table that is ordered by name. What is filed is told state by state
(`perm_productions_ofAutomaton`), and where everything is declared these are the productions of all transitions
and an empty one for each final state (`Closed.perm_productions_ofAutomaton`).

Main theorem `productionCount_ofAutomaton`: the number of productions of the grammar of a valid automaton, and its
non-terminals.
-/
namespace FiniteAutomata

theorem flatMap_filter {α β : Type} {p : α → Bool} {f : α → List β} {l : List α} :
    (l.filter p).flatMap f = l.flatMap fun x => if p x then f x else [] := by
  induction l with
  | nil => rfl
  | cons x l ih => cases hx : p x <;> simp [hx, ih]

namespace Automaton

variable {a : Automaton}

/-! ## State by state -/

/-- The transitions out of a state. -/
def edgesFrom (a : Automaton) (q : Nat) : List (Nat × Label × Nat) :=
  (rowPairs ((a.row? q).getD ∅)).map fun p => (q, p.1, p.2)

theorem edgesFrom_of_row? {q : Nat} {row : Row} (h : a.row? q = some row) :
    a.edgesFrom q = (rowPairs row).map fun p => (q, p.1, p.2) := by
  rw [edgesFrom, h, Option.getD_some]

theorem edgesFrom_of_not_mem_keys {q : Nat} (h : q ∉ a.transitions.keys) : a.edgesFrom q = [] := by
  have hrow : a.row? q = none := by
    rw [Option.eq_none_iff_forall_ne_some]
    exact fun row hrow => h (Table.mem_keys.2 ⟨row, hrow⟩)
  rw [edgesFrom, hrow]
  rfl

theorem edges_eq_flatMap_keys (a : Automaton) : a.edges = a.transitions.keys.flatMap a.edgesFrom := by
  rw [edges_eq, Table.keys, List.flatMap_map]
  exact List.flatMap_congr fun e he => (edgesFrom_of_row? (Table.get?_eq_some.2 he)).symm

/-- Where every source is declared, **the transitions are those of the declared states**. -/
theorem Closed.edges_eq_flatMap (h : a.Closed) : a.edges = a.states.toList.flatMap a.edgesFrom := by
  have hkeys : a.transitions.keys = a.states.toList.filter fun q => decide (q ∈ a.transitions.keys) := by
    refine StateSet.eq_of_mem_iff ?_ (a.states.ascending.filter _) fun q => ?_
    · exact a.transitions.ascending_keys.imp Nat.compare_eq_lt.1
    · rw [List.mem_filter, decide_eq_true_eq, StateSet.mem_toList]
      refine (and_iff_right_of_imp fun hq => ?_).symm
      obtain ⟨row, hrow⟩ := Table.mem_keys.1 hq
      exact h.sources q row hrow
  rw [edges_eq_flatMap_keys, hkeys, flatMap_filter]
  refine List.flatMap_congr fun q _ => ?_
  split
  · rfl
  · rename_i hq
    exact (edgesFrom_of_not_mem_keys fun hm => hq (decide_eq_true hm)).symm

/-- Where every final state is declared, the final states are found among the declared ones. -/
theorem Closed.filter_isFinal (h : a.Closed) : a.states.toList.filter a.isFinal = a.finals.toList := by
  refine StateSet.eq_of_mem_iff (a.states.ascending.filter _) a.finals.ascending fun q => ?_
  rw [List.mem_filter, isFinal, StateSet.contains_iff, StateSet.mem_toList, StateSet.mem_toList]
  exact and_iff_right_of_imp (h.finals q)

end Automaton

namespace Grammar

open Automaton

variable {a : Automaton}

/-- The production of a transition, between states that show their names. -/
def edgeText (a : Automaton) (e : Nat × Label × Nat) : String := transitionText e.2.1 (a.display e.2.2)

theorem stateProductions_eq (a : Automaton) (q : Nat) :
    stateProductions a q = (a.edgesFrom q).map (edgeText a) ++ if a.isFinal q then [""] else [] := by
  have hmoves : (((a.row? q).getD ∅).entries.flatMap fun e =>
      e.2.toList.map fun r => transitionText e.1 (a.display r)) = (a.edgesFrom q).map (edgeText a) := by
    rw [edgesFrom, rowPairs, List.map_flatMap, List.map_flatMap]
    simp only [List.map_map]
    rfl
  rw [stateProductions, hmoves]
  cases a.isFinal q with
  | true => rfl
  | false => exact (List.append_nil _).symm

/-! ## What is filed -/

/-- A state files its productions. -/
theorem perm_productions_addState (a : Automaton) (g : Grammar) (q : Nat) :
    (addState a g q).productions.values.flatten.Perm
      (g.productions.values.flatten ++ stateProductions a q) :=
  Table.perm_values_upsert_append _ _ _

/-- **The grammar of an automaton holds the productions of all declared states**, in some order. -/
theorem perm_productions_ofAutomaton (a : Automaton) :
    (ofAutomaton a).productions.values.flatten.Perm (a.states.toList.flatMap (stateProductions a)) := by
  have h : ∀ (qs : List Nat) (g : Grammar), (qs.foldl (addState a) g).productions.values.flatten.Perm
      (g.productions.values.flatten ++ qs.flatMap (stateProductions a)) := by
    intro qs
    induction qs with
    | nil => simp
    | cons q qs ih =>
      intro g
      rw [List.foldl_cons, List.flatMap_cons, ← List.append_assoc]
      exact (ih _).trans ((perm_productions_addState a g q).append_right _)
  exact h a.states.toList (new a.alphabet (a.display a.initial))

/-- Where everything is declared, **the grammar holds the productions of all transitions, and an empty one for
each final state**. -/
theorem perm_productions_of_closed (h : a.Closed) :
    (ofAutomaton a).productions.values.flatten.Perm
      (a.edges.map (edgeText a) ++ a.finals.toList.map fun _ => "") := by
  have hmoves : a.edges.map (edgeText a) =
      a.states.toList.flatMap fun q => (a.edgesFrom q).map (edgeText a) := by
    rw [h.edges_eq_flatMap, List.map_flatMap]
  have hempty : (a.finals.toList.map fun _ => "") =
      a.states.toList.flatMap fun q => if a.isFinal q then [""] else [] := by
    rw [← h.filter_isFinal, ← flatMap_filter, List.map_eq_flatMap]
  have hstate : stateProductions a =
      fun q => (a.edgesFrom q).map (edgeText a) ++ if a.isFinal q then [""] else [] :=
    funext (stateProductions_eq a)
  rw [hmoves, hempty]
  refine (perm_productions_ofAutomaton a).trans ?_
  rw [hstate]
  exact (List.flatMap_append_perm _ _ _).symm

theorem productionCount_of_closed (h : a.Closed) :
    (ofAutomaton a).productionCount = a.transitionCount + a.finals.size := by
  rw [productionCount, (perm_productions_of_closed h).length_eq, List.length_append, List.length_map,
    List.length_map]
  rfl

theorem mem_keys_iff {g : Grammar} {n : String} : n ∈ g.productions.keys ↔ g.isDefined n = true := by
  rw [Table.mem_keys, isDefined, Table.contains, Option.isSome_iff_exists]

/-- **The grammar of a valid automaton has a production for each transition and for each final state.** Its
non-terminals, each listed once and the start symbol first, are what has productions, and are the names of the
declared states, whichever states share a name. -/
theorem productionCount_ofAutomaton (hv : a.validate = .ok ()) :
    (ofAutomaton a).productionCount = a.transitionCount + a.finals.size ∧
      (∃ rest, (ofAutomaton a).nonTerminals = (ofAutomaton a).start :: rest) ∧
      (ofAutomaton a).nonTerminals.Nodup ∧
      (ofAutomaton a).nonTerminals.Perm (ofAutomaton a).productions.keys ∧
      ∀ n, n ∈ (ofAutomaton a).nonTerminals ↔ ∃ q ∈ a.states, a.display q = n := by
  have hv := validate_eq_ok_iff.1 hv
  have hl := listed_ofAutomaton a
  have hkeys : ∀ n, n ∈ (ofAutomaton a).nonTerminals ↔ n ∈ (ofAutomaton a).productions.keys := by
    intro n
    rw [mem_keys_iff, hl.defined n]
  refine ⟨productionCount_of_closed hv.closed, hl.start, hl.nodup, ?_, fun n => ?_⟩
  · exact (List.perm_ext_iff_of_nodup hl.nodup (Table.nodup_keys _)).2 hkeys
  · rw [← hl.defined n, isDefined_ofAutomaton]
    constructor
    · rintro (rfl | ⟨q, hq, rfl⟩)
      · exact ⟨a.initial, hv.initial, rfl⟩
      · exact ⟨q, hq, rfl⟩
    · rintro ⟨q, hq, rfl⟩
      exact Or.inr ⟨q, hq, rfl⟩

/-- An automaton of three states: two share a name, the third has none. One of them has a row without labels,
another a label without targets. -/
def homonymous : Automaton where
  names := ["a", "a"]
  alphabet := .ofSymbols ['x', 'y']
  states := .below 3
  initial := 0
  finals := .ofList [1, 2]
  transitions := .ofList
    [(0, .ofList [(some 'x', .ofList [0, 1])]), (1, .ofList [(some 'x', .ofList [1]), (some 'y', ∅)]), (2, ∅)]

/-- The automaton `homonymous` has three transitions and two final states, and shows two names. -/
theorem productionCount_homonymous :
    homonymous.validate = .ok () ∧ (ofAutomaton homonymous).productionCount = 5 ∧
      (ofAutomaton homonymous).nonTerminals.Nodup ∧
      ∀ n, n ∈ (ofAutomaton homonymous).nonTerminals ↔ ∃ q ∈ homonymous.states, homonymous.display q = n := by
  have hv : homonymous.validate = .ok () := by decide
  obtain ⟨hcount, -, hnodup, -, hnames⟩ := productionCount_ofAutomaton hv
  exact ⟨hv, hcount, hnodup, hnames⟩

end Grammar

end FiniteAutomata
