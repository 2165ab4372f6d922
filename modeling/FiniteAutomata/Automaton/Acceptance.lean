import FiniteAutomata.Automaton.Basic

/-!
# Accepted words

A word is read with the set of all states that its symbols so far can lead to. Epsilon transitions
are not followed, and a symbol outside of the alphabet leads nowhere.
-/
namespace FiniteAutomata.Automaton

/-- Whether every transition has a symbol and exactly one destination. -/
def isDeterministic (a : Automaton) : Bool :=
  a.transitions.entries.all fun (_, row) =>
    row.entries.all fun (label, targets) => label.isSome && targets.size == 1

/-- The states reached from the states of a list on a symbol. -/
def reachedOn (a : Automaton) (c : Char) : List Nat → StateSet
  | [] => ∅
  | q :: qs => (a.successors? q c).getD ∅ ∪ a.reachedOn c qs

/-- The states reached from the members of a set on a symbol. -/
def step (a : Automaton) (s : StateSet) (c : Char) : StateSet := a.reachedOn c s.toList

/-- Whether a word leads from the states of a set to a final state. -/
def acceptsFrom (a : Automaton) (s : StateSet) : List Char → Bool
  | [] => s.toList.any a.isFinal
  | c :: w =>
    a.alphabet.contains c &&
      let t := a.step s c
      !t.isEmpty && a.acceptsFrom t w

/-- Whether the automaton accepts a word. -/
def accepts (a : Automaton) (w : List Char) : Bool := a.acceptsFrom (.singleton a.initial) w

theorem acceptsFrom_cons (a : Automaton) (s : StateSet) (c : Char) (w : List Char) :
    a.acceptsFrom s (c :: w) = (a.alphabet.contains c &&
      (!(a.step s c).isEmpty && a.acceptsFrom (a.step s c) w)) := rfl

theorem mem_reachedOn {a : Automaton} {c : Char} {qs : List Nat} {r : Nat} :
    r ∈ a.reachedOn c qs ↔ ∃ q ∈ qs, ∃ t, a.successors? q c = some t ∧ r ∈ t := by
  induction qs with
  | nil => simp [reachedOn]
  | cons q qs ih =>
    rw [reachedOn, StateSet.mem_union, ih]
    cases h : a.successors? q c <;> simp [h]

/-- A step leads to the successors of the members. -/
theorem mem_step {a : Automaton} {s : StateSet} {c : Char} {r : Nat} :
    r ∈ a.step s c ↔ ∃ q ∈ s, ∃ t, a.successors? q c = some t ∧ r ∈ t := by
  simp [step, mem_reachedOn]

end FiniteAutomata.Automaton
