import FiniteAutomata.Naming
import FiniteAutomata.Proofs.Automaton.History

/-!
# What interning declares

Interning a name that is not in the table allocates the next handle and leaves the declared states as they
are. The next handle is the number of names, so the name is that of a declared state exactly if that handle
was declared without a name. Main theorem `internsUndeclared_after_iff`: this never happens to automata that
are built, loaded or converted, and happens to a decoded one, after some operations, exactly if it declares a
handle without a name, which the decoder does not check (`nameless`).
-/
namespace FiniteAutomata.Automaton

/-- Interning a name that is not in the table gives a handle that was not declared and still is not. -/
def InternsUndeclared (a : Automaton) : Prop :=
  ∀ n, n ∉ a.names → a.isDeclared (a.handle n) = false ∧ (a.intern n).isDeclared (a.handle n) = false

variable {a : Automaton} {o : Origin}

/-- Interning a name that is not in the table declares nothing, and the name is then that of the next handle. -/
theorem intern_fresh {n : String} (hn : n ∉ a.names) :
    (a.intern n).state? n = some a.names.length ∧ (a.intern n).states = a.states := by
  refine ⟨?_, states_intern a n⟩
  rw [state?_intern, handle_of_not_mem hn]

/-- It all depends on the next handle, as there is always a name that is not in the table. -/
theorem internsUndeclared_iff : a.InternsUndeclared ↔ a.names.length ∉ a.states := by
  have hdeclared : ∀ n, n ∉ a.names → (a.isDeclared (a.handle n) = false ↔ a.names.length ∉ a.states) := by
    intro n hn
    rw [handle_of_not_mem hn, ← Bool.not_eq_true, isDeclared_iff]
  constructor
  · intro h
    have hn := unusedName_not_mem a.names ""
    exact (hdeclared _ hn).1 (h _ hn).1
  · intro h n hn
    have hfalse := (hdeclared n hn).2 h
    refine ⟨hfalse, ?_⟩
    rwa [isDeclared, states_intern]

/-- Interning names can make the table as long as wanted, with the same states declared. -/
theorem exists_after_length (a : Automaton) (k : Nat) :
    ∃ ops, (a.after ops).names.length = a.names.length + k ∧ (a.after ops).states = a.states := by
  induction k with
  | zero => exact ⟨[], rfl, rfl⟩
  | succ k ih =>
    obtain ⟨ops, hlength, hstates⟩ := ih
    let n := unusedName (a.after ops).names ""
    have hn : n ∉ (a.after ops).names := unusedName_not_mem _ _
    have hintern : a.after (ops ++ [.intern n]) = (a.after ops).intern n := after_append a ops [.intern n]
    refine ⟨ops ++ [.intern n], ?_, ?_⟩
    · rw [hintern, intern_of_not_mem hn, ← Nat.add_assoc, ← hlength]
      exact List.length_append
    · rw [hintern, states_intern, hstates]

/-- The next handle of an automaton is declared only if it was declared from the start. -/
theorem length_mem_states_after_iff (ops : List Operation) :
    (a.after ops).names.length ∈ (a.after ops).states ↔ (a.after ops).names.length ∈ a.states := by
  obtain ⟨hkeep, hnew⟩ := mem_states_after (a := a) ops
  exact ⟨fun h => (hnew _ h).resolve_right (Nat.lt_irrefl _), hkeep _⟩

/-- **Interning never gives a declared handle to a new name, in any history, exactly if all declared states have
names to start with.** They have unless the automaton was decoded. Interning itself declares nothing: if the
handle is declared, it was so from the start. -/
theorem internsUndeclared_after_iff (h : o.automaton? = some a) :
    ((∀ ops, (a.after ops).InternsUndeclared) ↔ ∀ q ∈ a.states, q < a.names.length) ∧
    (o.isDecoded = false → ∀ q ∈ a.states, q < a.names.length) ∧
    ∀ ops n, n ∉ (a.after ops).names →
      ((a.after ops).intern n).state? n = some (a.after ops).names.length ∧
      ((a.after ops).intern n).states = (a.after ops).states ∧
      ((a.after ops).names.length ∈ (a.after ops).states ↔ (a.after ops).names.length ∈ a.states) := by
  refine ⟨⟨fun hall q hq => ?_, fun hnamed ops => ?_⟩, Origin.lt_length_of_mem_states h, fun ops n hn => ?_⟩
  · -- otherwise names are interned until the state's handle is the next one
    rw [← Nat.not_le]
    intro hle
    obtain ⟨ops, hlength, hstates⟩ := a.exists_after_length (q - a.names.length)
    have hnext := internsUndeclared_iff.1 (hall ops)
    rw [hlength, hstates, Nat.add_sub_cancel' hle] at hnext
    exact hnext hq
  · rw [internsUndeclared_iff, length_mem_states_after_iff]
    intro hmem
    exact Nat.lt_irrefl _ (Nat.lt_of_lt_of_le (hnamed _ hmem) (length_le_after a ops))
  · obtain ⟨hstate, hstates⟩ := intern_fresh hn
    exact ⟨hstate, hstates, length_mem_states_after_iff ops⟩

/-- An automaton with a declared state that has no name. -/
def nameless : Automaton where
  names := ["p"]
  alphabet := .ofSymbols ['a']
  states := .below 2
  initial := 0
  finals := ∅
  transitions := ∅

theorem automaton?_nameless : (Origin.bytes nameless.encode).automaton? = some nameless := by
  have hs : nameless.Storable := by constructor <;> decide
  exact hs.automaton?_encode

/-- A new automaton never gives a declared handle to a new name. The automaton `nameless` does so in some
history. -/
theorem internsUndeclared_after_new :
    (∀ al name ops, ((Automaton.new al name).after ops).InternsUndeclared) ∧
      (Origin.bytes nameless.encode).automaton? = some nameless ∧
      ¬ ∀ ops, (nameless.after ops).InternsUndeclared := by
  refine ⟨fun al name => ?_, automaton?_nameless, fun hall => ?_⟩
  · obtain ⟨hiff, hnamed, -⟩ := internsUndeclared_after_iff (o := .new al name) rfl
    exact hiff.2 (hnamed rfl)
  · have hlt := (internsUndeclared_after_iff automaton?_nameless).1.1 hall 1 (by decide)
    exact absurd hlt (by decide)

/-- The decoder gives the automaton `nameless`, which is valid, and interning a new name then gives the handle
of its second state, which is declared before and after. -/
theorem not_internsUndeclared_nameless :
    (Origin.bytes nameless.encode).automaton? = some nameless ∧ nameless.validate = .ok () ∧
      "x" ∉ nameless.names ∧ nameless.isDeclared (nameless.handle "x") = true ∧
      (nameless.intern "x").isDeclared (nameless.handle "x") = true :=
  ⟨automaton?_nameless, by decide, by decide, by decide, by decide⟩

end FiniteAutomata.Automaton
