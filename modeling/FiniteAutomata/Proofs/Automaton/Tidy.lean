import FiniteAutomata.Proofs.Automaton.Edges

/-!
# Tidy automata

An automaton is tidy when its declared states are the first ones of its table of names, the initial
state before the others, and when the table repeats no name. Loaded automata and determinized ones are
tidy, so their names and handles determine each other.
-/
namespace FiniteAutomata.Automaton

/-- The first `k` names are those of the declared states, starting with the initial one. -/
structure Tidy (a : Automaton) (k : Nat) : Prop where
  states : a.states = .below k
  initial : a.initial = 0
  le : k ≤ a.names.length
  nodup : a.names.Nodup
  nonempty : ∀ n ∈ a.names.take k, n ≠ ""
  filled : a.Filled

variable {a b : Automaton} {k q : Nat} {name : String}

/-! ## Names without repetition -/

theorem state?_eq_some_iff (h : a.names.Nodup) : a.state? name = some q ↔ a.names[q]? = some name := by
  refine ⟨name?_of_state?, fun hq => ?_⟩
  cases hs : a.state? name with
  | none => exact absurd (List.mem_of_getElem? hq) (state?_eq_none.1 hs)
  | some p =>
    have hp : a.names[p]? = some name := name?_of_state? hs
    rw [(List.getElem?_inj (List.getElem?_eq_some_iff.1 hp).1 h).1 (hp.trans hq.symm)]

theorem intern_of_state? (h : a.state? name = some q) : a.intern name = a := by
  rw [intern, h]
  rfl

theorem handle_of_state? (h : a.state? name = some q) : a.handle name = q := by
  rw [handle, h, Option.getD_some]

theorem nodup_names_intern (h : a.names.Nodup) (name : String) : (a.intern name).names.Nodup := by
  unfold intern
  split
  · exact h
  · rename_i hs
    have hm : name ∉ a.names := state?_eq_none.1 (Option.not_isSome_iff_eq_none.1 hs)
    exact List.nodup_append.2 ⟨h, by simp, by grind⟩

/-- Declaring a declared state changes nothing. -/
theorem addState_of_declared (h : a.state? name = some q) (hq : q ∈ a.states) : a.addState name = a := by
  have hstates : a.states.insert q = a.states := by
    ext p
    rw [StateSet.mem_insert]
    exact or_iff_right_of_imp fun e => e ▸ hq
  rw [addState, intern_of_state? h, handle_of_state? h, hstates]

theorem display_of_getElem? (h : a.names[q]? = some name) : a.display q = name := by
  rw [display, name?, h, Option.getD_some]

theorem Tidy.mem_states (h : a.Tidy k) : q ∈ a.states ↔ q < k := by
  rw [h.states, StateSet.mem_below]

theorem Tidy.size_eq (h : a.Tidy k) : a.size = k := by
  rw [size, h.states]
  exact List.length_range

theorem Tidy.getElem?_names (h : a.Tidy k) (hq : q < k) : a.names[q]? = some (a.display q) := by
  have hlt : q < a.names.length := Nat.lt_of_lt_of_le hq h.le
  have hget := List.getElem?_eq_getElem hlt
  rw [hget, display_of_getElem? hget]

theorem Tidy.display_ne_empty (h : a.Tidy k) (hq : q < k) : a.display q ≠ "" := by
  refine h.nonempty _ (List.mem_of_getElem? (i := q) ?_)
  rw [List.getElem?_take_of_lt hq, h.getElem?_names hq]

/-- The displayed names of the declared states are the first names of the table. -/
theorem Tidy.map_display (h : a.Tidy k) : a.states.toList.map a.display = a.names.take k := by
  rw [h.states]
  refine List.ext_getElem? fun i => ?_
  have hr : (StateSet.below k).toList = List.range k := rfl
  rw [hr, List.getElem?_map, List.getElem?_take]
  by_cases hi : i < k
  · rw [List.getElem?_range hi, if_pos hi, h.getElem?_names hi, Option.map_some]
  · rw [List.getElem?_eq_none (by simpa using hi), if_neg hi, Option.map_none]

/-! ## What keeps an automaton tidy -/

theorem alphabet_intern (a : Automaton) (name : String) : (a.intern name).alphabet = a.alphabet := by
  unfold intern
  split <;> rfl

theorem Filled.congr (h : a.Filled) (hb : b.transitions = a.transitions) : b.Filled := by
  have hrow : ∀ q, b.row? q = a.row? q := by
    intro q
    rw [row?, hb, row?]
  refine ⟨fun q row hr => h.rows q row (hrow q ▸ hr), fun q label targets ht => ?_⟩
  rw [targets?, hrow] at ht
  exact h.targets q label targets ht

theorem tidy_new (al : Alphabet) (h : name ≠ "") : (Automaton.new al name).Tidy 1 := by
  rw [new_eq]
  exact ⟨rfl, rfl, Nat.le_refl 1, by simp, by simpa using h, filled_of_transitions rfl⟩

/-- Interning a name may add it after the others. -/
theorem Tidy.intern (h : a.Tidy k) (name : String) : (a.intern name).Tidy k := by
  by_cases hm : name ∈ a.names
  · obtain ⟨q, hq⟩ := List.mem_iff_getElem?.1 hm
    rw [intern_of_state? ((state?_eq_some_iff h.nodup).2 hq)]
    exact h
  · have hnodup := nodup_names_intern h.nodup name
    rw [intern_of_not_mem hm] at hnodup ⊢
    refine ⟨h.states, h.initial, ?_, hnodup, ?_, h.filled.congr rfl⟩
    · show k ≤ (a.names ++ [name]).length
      rw [List.length_append]
      exact Nat.le_add_right_of_le h.le
    · simp only [List.take_append_of_le_length h.le]
      exact h.nonempty

/-- As long as all names are declared, declaring a state may add its name after the others. -/
theorem Tidy.addState (h : a.Tidy a.names.length) (hn : name ≠ "") :
    (a.addState name).Tidy (a.addState name).names.length := by
  by_cases hm : name ∈ a.names
  · obtain ⟨q, hq⟩ := List.mem_iff_getElem?.1 hm
    have hd : q ∈ a.states := h.mem_states.2 (List.getElem?_eq_some_iff.1 hq).1
    rwa [addState_of_declared ((state?_eq_some_iff h.nodup).2 hq) hd]
  · have hnodup : (a.addState name).names.Nodup := nodup_names_intern h.nodup name
    rw [addState_of_not_mem hm] at hnodup ⊢
    refine ⟨?_, h.initial, Nat.le_refl _, hnodup, ?_, h.filled.congr rfl⟩
    · simp only [h.states, List.length_append, List.length_singleton, StateSet.insert_below]
    · intro n hmem
      rcases List.mem_append.1 (List.mem_of_mem_take hmem) with hmem | hmem
      · exact h.nonempty n (by rwa [List.take_length])
      · exact List.mem_singleton.1 hmem ▸ hn

theorem Tidy.addFinal (h : a.Tidy k) (q : Nat) : (a.addFinal q).Tidy k :=
  ⟨h.states, h.initial, h.le, h.nodup, h.nonempty, h.filled.congr rfl⟩

theorem Tidy.addTransition (h : a.Tidy k) (q : Nat) (label : Label) (r : Nat) :
    (a.addTransition q label r).Tidy k :=
  ⟨h.states, h.initial, h.le, h.nodup, h.nonempty, h.filled.addTransition q label r⟩

end FiniteAutomata.Automaton
