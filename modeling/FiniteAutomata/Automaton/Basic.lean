import FiniteAutomata.Alphabet
import FiniteAutomata.Collection.Table
import FiniteAutomata.StateSet

/-!
# Finite automata

An automaton keeps the names of its states in a table; the handle of a state is the position of its
name. A name can be interned without being declared: only declared states belong to the automaton,
and what refers to others is reported by the validity check. A state may have several destinations
for one symbol, and transitions without a symbol. Main statements: interning keeps every look-up
that had an answer (`Automaton.state?_intern_of_some`) and makes the name known
(`Automaton.state?_intern`).
-/
namespace FiniteAutomata

/-- The label of a transition: a symbol, or none for an epsilon transition. -/
abbrev Label := Option Char

/-- The transitions out of one state. -/
abbrev Row := Table Label StateSet

/-- A finite automaton. -/
structure Automaton where
  /-- The names of the states, by handle. -/
  names : List String
  alphabet : Alphabet
  /-- The declared states. -/
  states : StateSet
  initial : Nat
  finals : StateSet
  transitions : Table Nat Row
  deriving BEq, Inhabited

/-- The last position of a name in a list. -/
def lastIndex? (name : String) : List String → Option Nat
  | [] => none
  | n :: ns =>
    match lastIndex? name ns with
    | some i => some (i + 1)
    | none => if n = name then some 0 else none

theorem lastIndex?_eq_none {name : String} {ns : List String} :
    lastIndex? name ns = none ↔ name ∉ ns := by
  induction ns with
  | nil => simp [lastIndex?]
  | cons n ns ih =>
    unfold lastIndex?
    split
    · rename_i i hi
      have : name ∈ ns := by
        refine Classical.byContradiction fun h => ?_
        rw [ih.2 h] at hi; cases hi
      simp [this]
    · rename_i hn
      have := ih.1 hn
      by_cases h : n = name
      · simp [h]
      · have h' : name ≠ n := fun e => h e.symm
        simp [h, h', this]

theorem lastIndex?_append_self (name : String) (ns : List String) :
    lastIndex? name (ns ++ [name]) = some ns.length := by
  induction ns with
  | nil => simp [lastIndex?]
  | cons n ns ih => simp [lastIndex?, ih]

theorem lastIndex?_append_of_ne {name other : String} (h : name ≠ other) (ns : List String) :
    lastIndex? name (ns ++ [other]) = lastIndex? name ns := by
  induction ns with
  | nil => simp [lastIndex?, h.symm]
  | cons n ns ih => simp [lastIndex?, ih]

theorem getElem?_of_lastIndex? {name : String} {ns : List String} {i : Nat}
    (h : lastIndex? name ns = some i) : ns[i]? = some name := by
  induction ns generalizing i with
  | nil => simp [lastIndex?] at h
  | cons n ns ih =>
    unfold lastIndex? at h
    split at h
    · rename_i j hj
      obtain rfl := Option.some.inj h
      simpa using ih hj
    · split at h
      · obtain rfl := Option.some.inj h
        simp; assumption
      · simp at h

namespace Automaton

/-! ### Looking states up -/

/-- The state of a name, declared or not. Of a repeated name, the last position counts. -/
def state? (a : Automaton) (name : String) : Option Nat := lastIndex? name a.names

/-- The name of a state. -/
def name? (a : Automaton) (q : Nat) : Option String := a.names[q]?

/-- The name that a state is displayed by: a state without a name shows its handle. -/
def display (a : Automaton) (q : Nat) : String := (a.name? q).getD ("#" ++ toString q)

/--
The handle of a name: that of the state it names, or else the one that interning it allocates.
-/
def handle (a : Automaton) (name : String) : Nat := (a.state? name).getD a.names.length

/-- Whether a state is declared. -/
def isDeclared (a : Automaton) (q : Nat) : Bool := a.states.contains q

/-- Whether a state is final. -/
def isFinal (a : Automaton) (q : Nat) : Bool := a.finals.contains q

/-- The transitions out of a state, none when it has no entry. -/
def row? (a : Automaton) (q : Nat) : Option Row := a.transitions.get? q

/-- The destinations of a state on a label. -/
def targets? (a : Automaton) (q : Nat) (label : Label) : Option StateSet :=
  (a.row? q).bind (·.get? label)

/-- The destinations of a state on a symbol. -/
def successors? (a : Automaton) (q : Nat) (c : Char) : Option StateSet := a.targets? q (some c)

/-- The number of declared states. -/
def size (a : Automaton) : Nat := a.states.size

/-- The transitions as triples, ascending. -/
def edges (a : Automaton) : List (Nat × Label × Nat) :=
  a.transitions.entries.flatMap fun (q, row) =>
    row.entries.flatMap fun (label, targets) => targets.toList.map fun r => (q, label, r)

/-- The number of transitions. -/
def transitionCount (a : Automaton) : Nat := a.edges.length

/-! ### Building -/

/-- Gives the name a handle, without declaring the state. -/
def intern (a : Automaton) (name : String) : Automaton :=
  if (a.state? name).isSome then a else { a with names := a.names ++ [name] }

/-- Declares the state of a name. -/
def addState (a : Automaton) (name : String) : Automaton :=
  { a.intern name with states := a.states.insert (a.handle name) }

/-- Makes a state final. -/
def addFinal (a : Automaton) (q : Nat) : Automaton := { a with finals := a.finals.insert q }

/-- Makes a state initial. -/
def setInitial (a : Automaton) (q : Nat) : Automaton := { a with initial := q }

/-- Adds a transition. Nothing is checked here. -/
def addTransition (a : Automaton) (source : Nat) (label : Label) (target : Nat) : Automaton :=
  { a with transitions :=
      a.transitions.upsert source ∅ fun row => row.upsert label ∅ fun s => s.insert target }

/-- The automaton of one state, which is initial. -/
def new (alphabet : Alphabet) (initial : String) : Automaton :=
  addState ⟨[], alphabet, ∅, 0, ∅, ∅⟩ initial

/-! ### Transitions after adding one -/

theorem row?_addTransition_self (a : Automaton) (q : Nat) (label : Label) (r : Nat) :
    (a.addTransition q label r).row? q =
      some (((a.row? q).getD ∅).upsert label ∅ fun s => s.insert r) :=
  Table.get?_upsert_self _ _ _ _

theorem row?_addTransition_of_ne (a : Automaton) {p q : Nat} (h : p ≠ q) (label : Label) (r : Nat) :
    (a.addTransition q label r).row? p = a.row? p := Table.get?_upsert_of_ne _ h _ _

theorem targets?_addTransition_self (a : Automaton) (q : Nat) (label : Label) (r : Nat) :
    (a.addTransition q label r).targets? q label =
      some (((a.targets? q label).getD ∅).insert r) := by
  rw [targets?, row?_addTransition_self, Option.bind_some, Table.get?_upsert_self]
  unfold targets?
  cases a.row? q <;> rfl

theorem targets?_addTransition_of_ne (a : Automaton) {p q : Nat} {l label : Label}
    (h : ¬ (p = q ∧ l = label)) (r : Nat) :
    (a.addTransition q label r).targets? p l = a.targets? p l := by
  by_cases hp : p = q
  · subst hp
    have hl : l ≠ label := fun e => h ⟨rfl, e⟩
    rw [targets?, row?_addTransition_self, Option.bind_some, Table.get?_upsert_of_ne _ hl]
    unfold targets?
    cases a.row? p <;> rfl
  · rw [targets?, row?_addTransition_of_ne _ hp, targets?]

/-! ### Names after interning -/

theorem state?_eq_none {a : Automaton} {name : String} : a.state? name = none ↔ name ∉ a.names :=
  lastIndex?_eq_none

theorem name?_of_state? {a : Automaton} {name : String} {q : Nat} (h : a.state? name = some q) :
    a.name? q = some name := getElem?_of_lastIndex? h

@[simp] theorem state?_intern (a : Automaton) (name : String) :
    (a.intern name).state? name = some (a.handle name) := by
  unfold intern handle
  split
  · rename_i h
    obtain ⟨q, hq⟩ := Option.isSome_iff_exists.1 h
    simp [hq]
  · rename_i h
    have hn : a.state? name = none := by simpa using h
    rw [hn]
    simp [state?, lastIndex?_append_self]

/-- Interning a name keeps the states of all names that had one. -/
theorem state?_intern_of_some {a : Automaton} {n name : String} {q : Nat}
    (h : a.state? n = some q) : (a.intern name).state? n = some q := by
  unfold intern
  split
  · exact h
  · rename_i hs
    have hne : n ≠ name := fun e => by simp [← e, h] at hs
    simpa [state?, lastIndex?_append_of_ne hne] using h

theorem handle_of_not_mem {a : Automaton} {name : String} (h : name ∉ a.names) :
    a.handle name = a.names.length := by
  rw [handle, state?_eq_none.2 h, Option.getD_none]

theorem intern_of_not_mem {a : Automaton} {name : String} (h : name ∉ a.names) :
    a.intern name = { a with names := a.names ++ [name] } := by
  rw [intern, state?_eq_none.2 h]
  rfl

theorem addState_of_not_mem {a : Automaton} {name : String} (h : name ∉ a.names) :
    a.addState name =
      { a with names := a.names ++ [name], states := a.states.insert a.names.length } := by
  rw [addState, handle_of_not_mem h, intern_of_not_mem h]

theorem new_eq (alphabet : Alphabet) (name : String) :
    Automaton.new alphabet name = ⟨[name], alphabet, .below 1, 0, ∅, ∅⟩ := by
  rw [Automaton.new, addState_of_not_mem (by simp)]
  rfl

theorem name?_intern_of_some {a : Automaton} {n name : String} {q : Nat}
    (h : a.name? q = some n) : (a.intern name).name? q = some n := by
  unfold intern
  split
  · exact h
  · unfold name? at h ⊢
    obtain ⟨hq, _⟩ := List.getElem?_eq_some_iff.1 h
    simp [List.getElem?_append_left hq, h]

end Automaton

end FiniteAutomata
