import FiniteAutomata.Automaton.Basic

/-!
# Equal automata

The comparison of automata looks at each of their fields. Alphabets are compared by their intervals, all
other fields are equal when they compare equal (`beq_iff`).
-/
namespace FiniteAutomata

instance {κ ν : Type} [Ord κ] [BEq κ] [LawfulBEq κ] [BEq ν] [LawfulBEq ν] : LawfulBEq (Table κ ν) where
  rfl {t} := beq_self_eq_true t.entries
  eq_of_beq {s t} h := by
    have e : s.entries = t.entries := eq_of_beq h
    cases s; cases t; cases e; rfl

theorem Alphabet.beq_iff {a b : Alphabet} : (a == b) = true ↔ a.intervals = b.intervals :=
  beq_iff_eq (a := a.intervals)

theorem Automaton.beq_iff {a b : Automaton} :
    (a == b) = true ↔ a.names = b.names ∧ a.alphabet.intervals = b.alphabet.intervals ∧
      a.states = b.states ∧ a.initial = b.initial ∧ a.finals = b.finals ∧
      a.transitions = b.transitions := by
  obtain ⟨names, alphabet, states, initial, finals, transitions⟩ := a
  obtain ⟨names', alphabet', states', initial', finals', transitions'⟩ := b
  have h : ((⟨names, alphabet, states, initial, finals, transitions⟩ : Automaton) ==
      ⟨names', alphabet', states', initial', finals', transitions'⟩) =
      (names == names' && (alphabet == alphabet' && (states == states' && (initial == initial' &&
        (finals == finals' && transitions == transitions'))))) := rfl
  rw [h]
  simp only [Bool.and_eq_true, beq_iff_eq, Alphabet.beq_iff]

end FiniteAutomata
