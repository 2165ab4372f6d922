import FiniteAutomata.Proofs.Automaton.Tidy
import FiniteAutomata.Proofs.Description.Document

/-!
# Loaded automata

Main theorem `ofDescription_tidy`: a loaded automaton is tidy, and its alphabet was filled symbol by
symbol. Words are not empty, so the declared names are not; the lines of transitions may mention further
names, which then follow the declared ones in the table.
-/
namespace FiniteAutomata

/-! ## Names in documents -/

theorem ne_empty_of_nameOn {line : Nat} {w : List Char} {name : String} (hw : w ≠ [])
    (h : nameOn line w = .ok name) : name ≠ "" := by
  rintro rfl
  obtain ⟨cs, hcs, he⟩ := Option.map_eq_some_iff.1 (nameOn_eq_ok.1 h)
  have hnil : cs = [] := by simpa using congrArg String.toList he
  rw [hnil] at hcs
  cases w with
  | nil => exact hw rfl
  | cons d ds =>
    rw [readSymbols] at hcs
    split at hcs
    · cases hcs
    · obtain ⟨cs, -, he⟩ := Option.map_eq_some_iff.1 hcs
      cases he

theorem Line.ne_empty_of_names {l : Line} {names : List String} (h : l.names = .ok names) :
    ∀ n ∈ names, n ≠ "" := by
  intro n hn
  obtain ⟨w, hw, h⟩ := (mem_of_mapM_eq_ok h).1 hn
  exact ne_empty_of_nameOn (mem_words hw).1 h

/-- The initial state of a document is listed, and no listed name is empty. -/
theorem Document.names_of_ofText {text : String} {d : Document} (h : Document.ofText text = .ok d) :
    (∀ n ∈ d.states, n ≠ "") ∧ d.initial ∈ d.states := by
  obtain ⟨s, -, h⟩ := bind_eq_ok.1 h
  obtain ⟨l₁, l₂, l₃, -, -, -, -, hs, -, hi, -⟩ := Document.ofSheet_eq_ok.1 h
  exact ⟨Line.ne_empty_of_names hs, hi⟩

/-! ## Building -/

namespace Automaton

/-- What building keeps once the states are declared. -/
def Loaded (al : Alphabet) (k : Nat) (a : Automaton) : Prop := a.Tidy k ∧ a.alphabet = al

variable {a : Automaton} {al : Alphabet} {k : Nat}

theorem Loaded.addFinalName (h : Loaded al k a) (name : String) : Loaded al k (a.addFinalName name) :=
  ⟨(h.1.intern name).addFinal _, (alphabet_intern a name).trans h.2⟩

theorem Loaded.addEntry (h : Loaded al k a) (source : Nat) (e : Label × String) :
    Loaded al k (a.addEntry source e) :=
  ⟨(h.1.intern e.2).addTransition _ _ _, (alphabet_intern a e.2).trans h.2⟩

theorem Loaded.addRow (h : Loaded al k a) (r : String × List (Label × String)) :
    Loaded al k (a.addRow r) :=
  List.foldlRecOn r.2 _ ⟨h.1.intern r.1, (alphabet_intern a r.1).trans h.2⟩
    fun _ hb e _ => hb.addEntry _ e

theorem loaded_declared {d : Document} (hs : ∀ n ∈ d.states, n ≠ "") (hi : d.initial ≠ "") :
    ∃ k, Loaded (.ofSymbols d.alphabet) k
      (d.states.foldl addState (.new (.ofSymbols d.alphabet) d.initial)) := by
  have hnew : (Automaton.new (.ofSymbols d.alphabet) d.initial).names.length = 1 := by
    rw [new_eq]
    rfl
  have h := List.foldlRecOn d.states addState (b := .new (.ofSymbols d.alphabet) d.initial)
    (motive := fun b => Loaded (.ofSymbols d.alphabet) b.names.length b)
    ⟨hnew ▸ tidy_new _ hi, by rw [new_eq]⟩
    fun b hb n hn => ⟨hb.1.addState (hs n hn), (alphabet_intern b n).trans hb.2⟩
  exact ⟨_, h⟩

/-- The automaton of a document is tidy when its states have names. -/
theorem loaded_automaton {d : Document} (hs : ∀ n ∈ d.states, n ≠ "") (hi : d.initial ≠ "") :
    ∃ k, Loaded (.ofSymbols d.alphabet) k d.automaton := by
  obtain ⟨k, hk⟩ := loaded_declared hs hi
  refine ⟨k, ?_⟩
  have hfinals := List.foldlRecOn d.accepting addFinalName (motive := Loaded (.ofSymbols d.alphabet) k)
    hk fun _ hb n _ => hb.addFinalName n
  exact List.foldlRecOn d.rows addRow hfinals fun _ hb r _ => hb.addRow r

/-- **A loaded automaton is tidy.** -/
theorem ofDescription_tidy {text : String} {a : Automaton} (h : ofDescription text = .ok a) :
    ∃ k cs, a.Tidy k ∧ a.alphabet = .ofSymbols cs := by
  unfold ofDescription at h
  cases hd : Document.ofText text with
  | error e =>
    rw [hd] at h
    cases h
  | ok d =>
    rw [hd] at h
    obtain rfl := Except.ok.inj h
    obtain ⟨hs, hi⟩ := Document.names_of_ofText hd
    obtain ⟨k, hk⟩ := loaded_automaton hs (hs _ hi)
    exact ⟨k, d.alphabet, hk⟩

end Automaton

end FiniteAutomata
