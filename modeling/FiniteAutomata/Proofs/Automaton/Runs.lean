import FiniteAutomata.Proofs.Automaton.Edges
import FiniteAutomata.Proofs.Automaton.Paths

/-!
# Runs

A run on a word is the list of the states that it passes, one more than the word has symbols. The words that
lead from a state to another are those with a run between them (`leads_iff_exists_run`).

Main theorem `accepts_iff_exists_run`: reading a word with the set of all states that are reached agrees with
the existence of a single run to a final state. Nothing is asked of the automaton: its states need not be
declared, its labels need not be in the alphabet, and its entries may have no destinations.
-/
namespace FiniteAutomata.Automaton

/-- The path goes from the first state to the second, by transitions on the successive symbols of the word. -/
structure IsRun (a : Automaton) (q : Nat) (w : List Char) (r : Nat) (path : List Nat) : Prop where
  length : path.length = w.length + 1
  first : path[0]? = some q
  last : path[w.length]? = some r
  moves : ∀ i p c t, path[i]? = some p → w[i]? = some c → path[i + 1]? = some t → a.HasEdge p (some c) t

variable {a : Automaton} {q r t : Nat} {c : Char} {w : List Char} {path : List Nat}

theorem isRun_nil (a : Automaton) (q : Nat) : a.IsRun q [] q [q] :=
  ⟨rfl, rfl, rfl, fun i p c t _ hc _ => by cases hc⟩

/-- A run goes on from the destination of its first transition. -/
theorem isRun_cons :
    a.IsRun q (c :: w) r (q :: path) ↔ ∃ t, a.HasEdge q (some c) t ∧ a.IsRun t w r path := by
  constructor
  · intro h
    have hlen : path.length = w.length + 1 := Nat.succ.inj h.length
    obtain ⟨t, ht⟩ : ∃ t, path[0]? = some t := ⟨path[0], List.getElem?_eq_getElem (by omega)⟩
    refine ⟨t, h.moves 0 q c t rfl rfl ht, hlen, ht, h.last, fun i p d u hp hd hu => ?_⟩
    exact h.moves (i + 1) p d u hp hd hu
  · rintro ⟨t, he, h⟩
    refine ⟨congrArg Nat.succ h.length, rfl, h.last, fun i p d u hp hd hu => ?_⟩
    cases i with
    | zero =>
      cases hp
      cases hd
      rwa [← Option.some.inj (h.first.symm.trans hu)]
    | succ i => exact h.moves i p d u hp hd hu

/-- A word leads from a state to another exactly if it has a run between them. -/
theorem leads_iff_exists_run : a.Leads q w r ↔ ∃ path, a.IsRun q w r path := by
  constructor
  · intro h
    induction h with
    | refl q => exact ⟨[q], isRun_nil a q⟩
    | @step q t r c w s hs ht h ih =>
      obtain ⟨path, hpath⟩ := ih
      exact ⟨q :: path, isRun_cons.2 ⟨t, ⟨s, hs, ht⟩, hpath⟩⟩
  · rintro ⟨path, h⟩
    induction w generalizing q path with
    | nil =>
      rw [leads_nil]
      exact Option.some.inj (h.first.symm.trans h.last)
    | cons c w ih =>
      cases path with
      | nil => cases h.first
      | cons p path =>
        obtain rfl := Option.some.inj h.first
        obtain ⟨t, ⟨s, hs, ht⟩, h⟩ := isRun_cons.1 h
        exact .step hs ht (ih path h)

/-- **A word is accepted exactly if its symbols are in the alphabet and it has a run from the initial state to a
final one.** -/
theorem accepts_iff_exists_run : a.accepts w = true ↔
    (∀ c ∈ w, a.alphabet.contains c = true) ∧ ∃ path, ∃ r ∈ a.finals, a.IsRun a.initial w r path := by
  rw [accepts, acceptsFrom_iff]
  refine and_congr_right fun _ => ?_
  simp only [StateSet.mem_singleton, exists_eq_left, leads_iff_exists_run]
  constructor
  · rintro ⟨r, hr, path, h⟩
    exact ⟨path, r, hr, h⟩
  · rintro ⟨path, r, hr, h⟩
    exact ⟨r, hr, path, h⟩

end FiniteAutomata.Automaton
