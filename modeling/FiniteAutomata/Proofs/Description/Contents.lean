import FiniteAutomata.Proofs.Automaton.Named
import FiniteAutomata.Proofs.Description.Rebuilding

/-!
# What documents say

A document describes an automaton when it says, by name, which states and transitions the automaton has.
Main statements: a document describes the automaton that is built from it (`Document.describes_automaton`),
and an automaton is described by its own document (`Automaton.Named.describes_document`).
-/
namespace FiniteAutomata

open Automaton

namespace Document

variable {a : Automaton} {d : Document} {q : Nat} {m n : String} {label : Label}

/-- The document lists the transition under its source. -/
def HasMove (d : Document) (m : String) (label : Label) (n : String) : Prop :=
  ∃ r ∈ d.rows, r.1 = m ∧ (label, n) ∈ r.2

/-- By their names, the automaton has the states and transitions that the document lists. -/
structure Describes (d : Document) (a : Automaton) : Prop where
  named : a.Named
  initial : a.name? a.initial = some d.initial
  states : ∀ n, a.HasState n ↔ n ∈ d.states
  finals : ∀ n, a.HasFinal n ↔ n ∈ d.accepting
  moves : ∀ m label n, a.HasMove m label n ↔ d.HasMove m label n

/-- Automata that one document describes are the same by name. -/
theorem Describes.sameByName {b : Automaton} (ha : d.Describes a) (hb : d.Describes b) : a.SameByName b := by
  refine ⟨ha.initial.trans hb.initial.symm, fun n => ?_, fun n => ?_, fun m label n => ?_⟩
  · rw [ha.states, hb.states]
  · rw [ha.finals, hb.finals]
  · rw [ha.moves, hb.moves]

/-! ## Building from a document -/

/-- What each step keeps, as one more member of a list is dealt with, holds after all of them. -/
theorem foldl_of_concat {α : Type} {P : List α → Automaton → Prop} {f : Automaton → α → Automaton}
    (hstep : ∀ ys x b, P ys b → P (ys ++ [x]) (f b x)) {ys : List α} (xs : List α) (h : P ys a) :
    P (ys ++ xs) (xs.foldl f a) := by
  induction xs generalizing ys a with
  | nil => rwa [List.append_nil]
  | cons x xs ih =>
    have := ih (hstep ys x a h)
    rwa [List.append_assoc, List.singleton_append] at this

theorem describes_new (al : Alphabet) (cs : List Char) (name : String) :
    Describes ⟨cs, [name], name, [], []⟩ (.new al name) := by
  refine ⟨named_new al name, by rw [new_eq]; rfl, fun n => ?_, fun n => ?_, fun m label n => ?_⟩
  · have hzero : (Automaton.new al name).HasState n ↔ name = n := by
      rw [new_eq]
      simp [HasState, name?]
    rw [hzero, List.mem_singleton, eq_comm]
  · simp [new_eq, HasFinal]
  · simp [new_eq, Automaton.HasMove, HasEdge, targets?, row?, HasMove]

/-- Interning a name changes nothing that is told by name. -/
theorem Describes.intern (h : d.Describes a) (name : String) : d.Describes (a.intern name) := by
  refine ⟨h.named.intern name, ?_, fun n => ?_, fun n => ?_, fun m label n => ?_⟩
  · have hi : (a.intern name).initial = a.initial := by rw [intern_eq]
    rw [hi, name?_intern name h.named.initial, h.initial]
  · rw [h.named.hasState_intern, h.states]
  · rw [h.named.hasFinal_intern, h.finals]
  · rw [h.named.hasMove_intern, h.moves]

theorem Describes.addState (h : d.Describes a) (name : String) :
    Describes { d with states := d.states ++ [name] } (a.addState name) := by
  have hi := h.intern name
  refine ⟨h.named.addState name, hi.initial, fun n => ?_, hi.finals, hi.moves⟩
  rw [h.named.hasState_addState, h.states, List.mem_append, List.mem_singleton]

theorem Describes.addFinalName (h : d.Describes a) (name : String) :
    Describes { d with accepting := d.accepting ++ [name] } (a.addFinalName name) := by
  have hi := h.intern name
  refine ⟨hi.named.addFinal (handle_lt a name), hi.initial, hi.states, fun n => ?_, hi.moves⟩
  rw [Automaton.addFinalName, hasFinal_addFinal (name?_handle a name), hi.finals, List.mem_append,
    List.mem_singleton]

theorem hasMove_concat {rs : List (String × List (Label × String))} {r : String × List (Label × String)} :
    HasMove { d with rows := rs ++ [r] } m label n ↔
      HasMove { d with rows := rs } m label n ∨ r.1 = m ∧ (label, n) ∈ r.2 := by
  simp only [HasMove, List.mem_append, List.mem_singleton, or_and_right, exists_or, exists_eq_left]

/-- An entry is added to the last row, whose source is known. -/
theorem Describes.addEntry {rs : List (String × List (Label × String))} {es : List (Label × String)}
    (h : Describes { d with rows := rs ++ [(m, es)] } a) (hq : a.name? q = some m) (e : Label × String) :
    Describes { d with rows := rs ++ [(m, es ++ [e])] } (a.addEntry q e) := by
  have hi := h.intern e.2
  have hlt : q < a.names.length := (List.getElem?_eq_some_iff.1 hq).1
  have hq' : (a.intern e.2).name? q = some m := by rw [name?_intern e.2 hlt, hq]
  refine ⟨hi.named.addTransition ?_ (handle_lt a e.2) e.1, hi.initial, hi.states, hi.finals,
    fun p l n => ?_⟩
  · exact Nat.lt_of_lt_of_le hlt (length_le_intern a e.2)
  · rw [Automaton.addEntry, hasMove_addTransition hq' (name?_handle a e.2), hi.moves, hasMove_concat,
      hasMove_concat, or_assoc, List.mem_append, List.mem_singleton, and_or_left, Prod.ext_iff,
      eq_comm (a := p)]

theorem name?_addEntry {e : Label × String} (hq : a.name? q = some m) :
    (a.addEntry q e).name? q = some m := by
  show (a.intern e.2).name? q = some m
  rw [name?_intern e.2 (List.getElem?_eq_some_iff.1 hq).1, hq]

theorem Describes.foldl_addEntry {rs : List (String × List (Label × String))}
    (h : Describes { d with rows := rs ++ [(m, [])] } a) (hq : a.name? q = some m)
    (es : List (Label × String)) :
    Describes { d with rows := rs ++ [(m, es)] } (es.foldl (Automaton.addEntry q) a) :=
  -- the source keeps its name meanwhile
  (foldl_of_concat (P := fun es b => Describes { d with rows := rs ++ [(m, es)] } b ∧ b.name? q = some m)
    (fun _ e _ hb => ⟨hb.1.addEntry hb.2 e, name?_addEntry hb.2⟩) es ⟨h, hq⟩).1

theorem Describes.addRow (h : d.Describes a) (r : String × List (Label × String)) :
    Describes { d with rows := d.rows ++ [r] } (a.addRow r) := by
  have hi := h.intern r.1
  have hempty : Describes { d with rows := d.rows ++ [(r.1, [])] } (a.intern r.1) := by
    refine ⟨hi.named, hi.initial, hi.states, hi.finals, fun m label n => ?_⟩
    rw [hi.moves, hasMove_concat]
    simp
  exact hempty.foldl_addEntry (name?_handle a r.1) r.2

theorem Describes.foldl_addState (h : d.Describes a) (ns : List String) :
    Describes { d with states := d.states ++ ns } (ns.foldl Automaton.addState a) :=
  foldl_of_concat (P := fun ns b => Describes { d with states := ns } b)
    (fun _ n _ hb => hb.addState n) ns h

theorem Describes.foldl_addFinalName (h : d.Describes a) (ns : List String) :
    Describes { d with accepting := d.accepting ++ ns } (ns.foldl Automaton.addFinalName a) :=
  foldl_of_concat (P := fun ns b => Describes { d with accepting := ns } b)
    (fun _ n _ hb => hb.addFinalName n) ns h

theorem Describes.foldl_addRow (h : d.Describes a) (rs : List (String × List (Label × String))) :
    Describes { d with rows := d.rows ++ rs } (rs.foldl Automaton.addRow a) :=
  foldl_of_concat (P := fun rs b => Describes { d with rows := rs } b)
    (fun _ r _ hb => hb.addRow r) rs h

/-- **A document describes the automaton that is built from it**, when its initial state is listed. -/
theorem describes_automaton (h : d.initial ∈ d.states) : d.Describes d.automaton := by
  have hnew := describes_new (.ofSymbols d.alphabet) d.alphabet d.initial
  have hall := ((hnew.foldl_addState d.states).foldl_addFinalName d.accepting).foldl_addRow d.rows
  refine ⟨hall.named, hall.initial, fun n => ?_, hall.finals, hall.moves⟩
  refine (hall.states n).trans ?_
  rw [List.mem_append, List.mem_singleton]
  exact or_iff_right_of_imp fun e => e ▸ h

theorem alphabet_automaton (d : Document) : d.automaton.alphabet = .ofSymbols d.alphabet := by
  have hentry : ∀ (q : Nat) (b : Automaton) (e : Label × String),
      (b.addEntry q e).alphabet = b.alphabet := fun q b e => alphabet_intern b e.2
  have hrow : ∀ (b : Automaton) (r : String × List (Label × String)),
      (b.addRow r).alphabet = b.alphabet := fun b r =>
    List.foldlRecOn r.2 _ (motive := fun c => c.alphabet = b.alphabet) (alphabet_intern b r.1)
      fun c hc e _ => (hentry _ c e).trans hc
  have hstates := List.foldlRecOn d.states Automaton.addState
    (b := .new (.ofSymbols d.alphabet) d.initial) (motive := fun b => b.alphabet = .ofSymbols d.alphabet)
    (by rw [new_eq]) fun b hb n _ => (alphabet_intern b n).trans hb
  have hfinals := List.foldlRecOn d.accepting Automaton.addFinalName
    (motive := fun b => b.alphabet = .ofSymbols d.alphabet) hstates
    fun b hb n _ => (alphabet_intern b n).trans hb
  exact List.foldlRecOn d.rows Automaton.addRow (motive := fun b => b.alphabet = .ofSymbols d.alphabet)
    hfinals fun b hb r _ => (hrow b r).trans hb

end Document

namespace Automaton

variable {a : Automaton} {q : Nat} {m n : String} {label : Label}

theorem name?_eq_some_iff (h : q < a.names.length) : a.name? q = some n ↔ a.display q = n := by
  rw [name?_eq_display h, Option.some.injEq]

theorem hasMove_document : a.document.HasMove m label n ↔
    ∃ q r, a.HasEdge q label r ∧ a.display q = m ∧ a.display r = n := by
  have hedge : ∀ q r, a.HasEdge q label r ↔
      ∃ e ∈ a.transitions.entries, e.1 = q ∧ (label, r) ∈ rowPairs e.2 := by
    intro q r
    rw [← mem_edges, edges_eq]
    simp only [List.mem_flatMap, List.mem_map, Prod.mk.injEq, Prod.exists]
    grind
  simp only [Document.HasMove, document, List.mem_map, entryNames_eq, hedge]
  constructor
  · rintro ⟨-, ⟨e, he, rfl⟩, rfl, hp⟩
    obtain ⟨p, hr, h⟩ := List.mem_map.1 hp
    obtain ⟨rfl, rfl⟩ := Prod.mk.inj h
    exact ⟨e.1, p.2, ⟨e, he, rfl, hr⟩, rfl, rfl⟩
  · rintro ⟨-, r, ⟨e, he, rfl, hp⟩, rfl, rfl⟩
    exact ⟨_, ⟨e, he, rfl⟩, rfl, List.mem_map.2 ⟨(label, r), hp, rfl⟩⟩

/-- **An automaton is described by its document.** -/
theorem Named.describes_document (h : a.Named) : a.document.Describes a := by
  refine ⟨h, (name?_eq_some_iff h.initial).2 rfl, fun n => ?_, fun n => ?_, fun m label n => ?_⟩
  · show a.HasState n ↔ n ∈ a.states.toList.map a.display
    rw [List.mem_map]
    exact exists_congr fun q => and_congr_right fun hq => name?_eq_some_iff (h.states q hq)
  · show a.HasFinal n ↔ n ∈ a.finals.toList.map a.display
    rw [List.mem_map]
    exact exists_congr fun q => and_congr_right fun hq => name?_eq_some_iff (h.finals q hq)
  · rw [hasMove_document]
    refine exists_congr fun q => exists_congr fun r => and_congr_right fun he => ?_
    obtain ⟨hq, hr⟩ := h.edges q label r he
    rw [name?_eq_some_iff hq, name?_eq_some_iff hr]

end Automaton

end FiniteAutomata
