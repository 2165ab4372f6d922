import FiniteAutomata.Proofs.Automaton.Tidy
import FiniteAutomata.Proofs.Description.Document

/-!
# Building an automaton from its document

Main theorem `ofDescription_description`: what is loaded from the description of a valid and tidy
automaton is that automaton, except for its alphabet, which is filled again symbol by symbol, and for
the names that are not declared, which are lost (`Automaton.rebuilt`).
-/
namespace FiniteAutomata

namespace Automaton

variable {a b : Automaton} {k : Nat}

/-! ## Declared states -/

theorem foldl_addState_of_nodup {ns ms : List String} (h : (ns ++ ms).Nodup) (al : Alphabet) :
    ms.foldl addState ⟨ns, al, .below ns.length, 0, ∅, ∅⟩ =
      ⟨ns ++ ms, al, .below (ns ++ ms).length, 0, ∅, ∅⟩ := by
  induction ms generalizing ns with
  | nil => rw [List.append_nil]; rfl
  | cons m ms ih =>
    have hm : m ∉ ns := by
      intro hm
      exact (List.nodup_append.1 h).2.2 m hm m List.mem_cons_self rfl
    have hstep : addState ⟨ns, al, .below ns.length, 0, ∅, ∅⟩ m =
        ⟨ns ++ [m], al, .below (ns ++ [m]).length, 0, ∅, ∅⟩ := by
      rw [addState_of_not_mem hm, List.length_append, List.length_singleton]
      simp only [StateSet.insert_below]
    have he : ns ++ m :: ms = ns ++ [m] ++ ms := by rw [List.append_assoc, List.singleton_append]
    rw [he] at h ⊢
    rw [List.foldl_cons, hstep, ih h]

/-- The initial state that is declared again keeps its place. -/
theorem foldl_addState_new {n : String} {ns : List String} (h : (n :: ns).Nodup) (al : Alphabet) :
    (n :: ns).foldl addState (.new al n) = ⟨n :: ns, al, .below (n :: ns).length, 0, ∅, ∅⟩ := by
  have hs : (⟨[n], al, .below 1, 0, ∅, ∅⟩ : Automaton).state? n = some 0 := by
    simp [state?, lastIndex?]
  have hstep : addState ⟨[n], al, .below 1, 0, ∅, ∅⟩ n = ⟨[n], al, .below 1, 0, ∅, ∅⟩ := by
    rw [addState, intern_of_state? hs, handle_of_state? hs]
    rfl
  have h : ([n] ++ ns).Nodup := h
  rw [new_eq, List.foldl_cons, hstep]
  exact foldl_addState_of_nodup h al

/-! ## Final states and transitions -/

theorem foldl_addFinalName {qs : List Nat} (h : ∀ q ∈ qs, b.state? (a.display q) = some q) :
    (qs.map a.display).foldl addFinalName b = { b with finals := b.finals.insertAll qs } := by
  induction qs generalizing b with
  | nil => rfl
  | cons q qs ih =>
    have hq := h q (by simp)
    have hstep : b.addFinalName (a.display q) = { b with finals := b.finals.insert q } := by
      rw [addFinalName, intern_of_state? hq, handle_of_state? hq]
      rfl
    rw [List.map_cons, List.foldl_cons, hstep]
    exact ih fun p hp => h p (List.mem_cons_of_mem q hp)

theorem state?_addEdges (b : Automaton) (es : List (Nat × Label × Nat)) (name : String) :
    (b.addEdges es).state? name = b.state? name := by
  rw [state?, names_addEdges, state?]

theorem foldl_addEntry {q : Nat} {ps : List (Label × Nat)}
    (h : ∀ p ∈ ps, b.state? (a.display p.2) = some p.2) :
    (ps.map fun p => (p.1, a.display p.2)).foldl (addEntry q) b =
      b.addEdges (ps.map fun p => (q, p.1, p.2)) := by
  induction ps generalizing b with
  | nil => rfl
  | cons p ps ih =>
    have hp := h p (by simp)
    have hstep : b.addEntry q (p.1, a.display p.2) = b.addTransition q p.1 p.2 := by
      rw [addEntry, intern_of_state? hp, handle_of_state? hp]
    rw [List.map_cons, List.foldl_cons, hstep, List.map_cons, addEdges_cons, ih]
    exact fun r hr => h r (List.mem_cons_of_mem p hr)

theorem entryNames_eq (a : Automaton) (row : Row) :
    a.entryNames row = (rowPairs row).map fun p => (p.1, a.display p.2) := by
  rw [entryNames, rowPairs, List.map_flatMap]
  simp only [List.map_map]
  rfl

/-- Rows whose states are known are added transition by transition. -/
theorem foldl_addRow {es : List (Nat × Row)}
    (hs : ∀ e ∈ es, b.state? (a.display e.1) = some e.1)
    (ht : ∀ e ∈ es, ∀ p ∈ rowPairs e.2, b.state? (a.display p.2) = some p.2) :
    (es.map fun e => (a.display e.1, a.entryNames e.2)).foldl addRow b =
      b.addEdges (es.flatMap fun e => (rowPairs e.2).map fun p => (e.1, p.1, p.2)) := by
  induction es generalizing b with
  | nil => rfl
  | cons e es ih =>
    have he := hs e (by simp)
    have hstep : b.addRow (a.display e.1, a.entryNames e.2) =
        b.addEdges ((rowPairs e.2).map fun p => (e.1, p.1, p.2)) := by
      rw [addRow, intern_of_state? he, handle_of_state? he, entryNames_eq,
        foldl_addEntry (ht e (by simp))]
    rw [List.map_cons, List.foldl_cons, hstep, List.flatMap_cons, addEdges_append, ih]
    · intro f hf
      rw [state?_addEdges]
      exact hs f (List.mem_cons_of_mem e hf)
    · intro f hf p hp
      rw [state?_addEdges]
      exact ht f (List.mem_cons_of_mem e hf) p hp

theorem Closed.mem_states_of_rowPairs (hc : a.Closed) {e : Nat × Row} (he : e ∈ a.transitions.entries)
    {p : Label × Nat} (hp : p ∈ rowPairs e.2) : p.2 ∈ a.states := by
  have hm : (e.1, p.1, p.2) ∈ a.edges := by
    rw [edges_eq]
    exact List.mem_flatMap.2 ⟨e, he, List.mem_map.2 ⟨p, hp, rfl⟩⟩
  obtain ⟨targets, ht, hr⟩ := mem_edges.1 hm
  exact hc.targets _ _ _ ht _ hr

/-- The automaton with the names of its declared states only, and its alphabet filled again. -/
def rebuilt (a : Automaton) : Automaton :=
  { a with names := a.names.take a.size, alphabet := .ofSymbols a.document.alphabet }

/-- A tidy automaton in which everything is declared is rebuilt from its document. -/
theorem automaton_document (h : a.Tidy k) (hc : a.Closed) : a.document.automaton = a.rebuilt := by
  have hk : 0 < k := h.mem_states.1 (h.initial ▸ hc.initial)
  have hlen : (a.names.take k).length = k := by rw [List.length_take]; exact Nat.min_eq_left h.le
  have hnodup : (a.names.take k).Nodup := h.nodup.sublist (List.take_sublist _ _)
  -- the table of names starts with the name of the initial state
  obtain ⟨n, ns, hns⟩ : ∃ n ns, a.names.take k = n :: ns :=
    List.exists_cons_of_ne_nil (List.ne_nil_of_length_pos (by omega))
  have hinitial : a.document.initial = n := by
    have h0 : (a.names.take k)[0]? = some n := by rw [hns]; rfl
    rw [List.getElem?_take_of_lt hk, ← h.initial] at h0
    exact display_of_getElem? h0
  let b : Automaton := ⟨a.names.take k, .ofSymbols a.document.alphabet, .below k, 0, ∅, ∅⟩
  let c : Automaton := { b with finals := a.finals }
  have hdeclared : a.document.states.foldl addState
      (.new (.ofSymbols a.document.alphabet) a.document.initial) = b := by
    have hd : a.document.states = n :: ns := h.map_display.trans hns
    rw [hinitial, hd, foldl_addState_new (hns ▸ hnodup), ← hns, hlen]
  have hknown : ∀ q ∈ a.states, b.state? (a.display q) = some q := by
    intro q hq
    have hq := h.mem_states.1 hq
    refine (state?_eq_some_iff hnodup).2 ?_
    rw [List.getElem?_take_of_lt hq, h.getElem?_names hq]
  have hfinals : a.document.accepting.foldl addFinalName b = c := by
    have hall : (∅ : StateSet).insertAll a.finals.toList = a.finals := by
      ext q
      simp
    refine (foldl_addFinalName fun q hq => hknown q (hc.finals q hq)).trans ?_
    exact congrArg (fun f => ({ b with finals := f } : Automaton)) hall
  have hrows : a.document.rows.foldl addRow c = c.addEdges a.edges := by
    rw [edges_eq]
    refine foldl_addRow (fun e he => ?_) fun e he p hp => ?_
    · exact hknown e.1 (hc.sources e.1 e.2 (Table.get?_eq_some.2 he))
    · exact hknown p.2 (hc.mem_states_of_rowPairs he hp)
  have hedges : (c.addEdges a.edges).transitions = a.transitions := by
    have hfilled : c.Filled := filled_of_transitions rfl
    refine (hfilled.addEdges a.edges).transitions_eq h.filled fun q label r => ?_
    have hnone : ¬ c.HasEdge q label r := by
      rintro ⟨targets, ht, -⟩
      cases ht
    rw [hasEdge_addEdges, mem_edges]
    simp [hnone]
  rw [Document.automaton, hdeclared, hfinals, hrows, addEdges_eq, hedges, rebuilt, h.size_eq, h.states,
    h.initial]

/-- **What is loaded from the description of a valid and tidy automaton** is the automaton, up to its
alphabet and the names that are not declared. -/
theorem ofDescription_description (h : a.Tidy k) (hv : a.Valid) :
    ofDescription a.description = .ok a.rebuilt := by
  have hr : a.Readable := hv.closed.readable fun q hq => h.display_ne_empty (h.mem_states.1 hq)
  rw [ofDescription, Document.ofText_description hr, ← automaton_document h hv.closed]
  rfl

end Automaton

end FiniteAutomata
