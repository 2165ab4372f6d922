import Mathlib.Data.List.Induction
import FiniteAutomata.Proofs.Automaton.History

/-!
# The index of the names

A name can be looked up in an index of the handles instead of in the table of names (`Indexed`). Interning
extends the index with the table. The decoder fills it from a table that may repeat names, and keeps the last
position of each. Main theorem `lookups_after`: in every history the index gives what the table gives, the
last position of a name, and no operation changes what was given before.
-/
namespace FiniteAutomata

/-! ## The last position of a name -/

theorem le_of_lastIndex? {n : String} {ns : List String} {q r : Nat} (h : lastIndex? n ns = some q)
    (hr : ns[r]? = some n) : r ≤ q := by
  induction ns generalizing q r with
  | nil => cases h
  | cons m ms ih =>
    unfold lastIndex? at h
    split at h
    · rename_i i hi
      obtain rfl := Option.some.inj h
      cases r with
      | zero => exact Nat.zero_le _
      | succ r => exact Nat.succ_le_succ (ih hi (by simpa using hr))
    · rename_i hnone
      cases r with
      | zero => exact Nat.zero_le _
      | succ r =>
        rw [List.getElem?_cons_succ] at hr
        exact absurd (List.mem_of_getElem? hr) (lastIndex?_eq_none.1 hnone)

/-- The name stands at the position, and at none after it. -/
def IsLastAt (n : String) (ns : List String) (q : Nat) : Prop :=
  ns[q]? = some n ∧ ∀ r, ns[r]? = some n → r ≤ q

theorem lastIndex?_eq_some_iff {n : String} {ns : List String} {q : Nat} :
    lastIndex? n ns = some q ↔ IsLastAt n ns q := by
  constructor
  · exact fun h => ⟨getElem?_of_lastIndex? h, fun r hr => le_of_lastIndex? h hr⟩
  · rintro ⟨hq, hlast⟩
    cases hp : lastIndex? n ns with
    | none => exact absurd (List.mem_of_getElem? hq) (lastIndex?_eq_none.1 hp)
    | some p =>
      rw [Nat.le_antisymm (hlast p (getElem?_of_lastIndex? hp)) (le_of_lastIndex? hp hq)]

/-- A table that is filled with the positions of names, in order, keeps the last one of each. -/
theorem get?_ofList_zipIdx (n : String) (ns : List String) :
    (Table.ofList ns.zipIdx).get? n = lastIndex? n ns := by
  induction ns using List.reverseRecOn with
  | nil => rfl
  | append_singleton ns m ih =>
    have hinsert : Table.ofList (ns ++ [m]).zipIdx = (Table.ofList ns.zipIdx).insert m ns.length := by
      rw [List.zipIdx_append, Table.ofList, List.foldl_append, Nat.zero_add]
      rfl
    rw [hinsert]
    by_cases hm : n = m
    · subst hm
      rw [Table.get?_insert_self, lastIndex?_append_self]
    · rw [Table.get?_insert_of_ne _ hm, ih, lastIndex?_append_of_ne hm]

/-! ## Automata with an index -/

/-- An automaton with an index of the handles of its names. -/
structure Indexed where
  automaton : Automaton
  index : Table String Nat

namespace Indexed

open Automaton (Operation Origin)

/-- The handle that the index has for a name. -/
def state? (x : Indexed) (name : String) : Option Nat := x.index.get? name

/--
Interns a name and gives its handle: the one that the index has for it, or else the next one, which the name
is appended to the table and entered into the index for.
-/
def intern (x : Indexed) (name : String) : Nat × Indexed :=
  match x.state? name with
  | some q => (q, x)
  | none =>
    let q := x.automaton.names.length
    (q, ⟨{ x.automaton with names := x.automaton.names ++ [name] }, x.index.insert name q⟩)

/-- Declares the state of a name and gives its handle. -/
def addState (x : Indexed) (name : String) : Nat × Indexed :=
  let (q, y) := x.intern name
  (q, { y with automaton.states := y.automaton.states.insert q })

/-- The automaton and its index after an operation. -/
def apply (x : Indexed) : Operation → Indexed
  | .intern name => (x.intern name).2
  | .addState name => (x.addState name).2
  | op => { x with automaton := x.automaton.apply op }

/-- The automaton of one state, which is initial. -/
def new (al : Alphabet) (name : String) : Indexed :=
  let (q, x) := addState ⟨⟨[], al, ∅, 0, ∅, ∅⟩, ∅⟩ name
  { x with automaton.initial := q }

/-- A decoded automaton, whose index is filled from its table of names. -/
def ofDecoded (a : Automaton) : Indexed := ⟨a, .ofList a.names.zipIdx⟩

/-- The index was kept from when the automaton was new or decoded. -/
inductive Kept : Indexed → Prop where
  | new (al : Alphabet) (name : String) : Kept (.new al name)
  | decoded {bs : List UInt8} {a : Automaton} (h : Automaton.decode? bs = some a) : Kept (.ofDecoded a)
  | apply {x : Indexed} (h : Kept x) (op : Operation) : Kept (x.apply op)

/-- The index gives what the table of names gives. -/
def Agrees (x : Indexed) : Prop := ∀ n, x.state? n = x.automaton.state? n

variable {x : Indexed} {name : String} {op : Operation}

theorem Agrees.intern (h : x.Agrees) (name : String) :
    (x.intern name).1 = x.automaton.handle name ∧ (x.intern name).2.automaton = x.automaton.intern name ∧
      (x.intern name).2.Agrees := by
  unfold Indexed.intern
  cases hs : x.automaton.state? name with
  | some q =>
    rw [h name, hs]
    exact ⟨(Automaton.handle_of_state? hs).symm, (Automaton.intern_of_state? hs).symm, h⟩
  | none =>
    have hm := Automaton.state?_eq_none.1 hs
    rw [h name, hs]
    refine ⟨(Automaton.handle_of_not_mem hm).symm, (Automaton.intern_of_not_mem hm).symm, fun n => ?_⟩
    show (x.index.insert name x.automaton.names.length).get? n = lastIndex? n (x.automaton.names ++ [name])
    by_cases hn : n = name
    · subst hn
      rw [Table.get?_insert_self, lastIndex?_append_self]
    · rw [Table.get?_insert_of_ne _ hn, lastIndex?_append_of_ne hn]
      exact h n

theorem Agrees.addState (h : x.Agrees) (name : String) :
    (x.addState name).1 = x.automaton.handle name ∧
      (x.addState name).2.automaton = x.automaton.addState name ∧ (x.addState name).2.Agrees := by
  obtain ⟨hq, ha, hagrees⟩ := h.intern name
  refine ⟨hq, ?_, hagrees⟩
  simp only [Indexed.addState, Automaton.addState, hq, ha, Automaton.states_intern]

/-- **An operation by the index is the operation by the table, and keeps the index.** -/
theorem Agrees.apply (h : x.Agrees) (op : Operation) :
    (x.apply op).automaton = x.automaton.apply op ∧ (x.apply op).Agrees := by
  cases op with
  | intern name => exact (h.intern name).2
  | addState name => exact (h.addState name).2
  | addFinal q => exact ⟨rfl, h⟩
  | addTransition q label r => exact ⟨rfl, h⟩
  | setInitial q => exact ⟨rfl, h⟩

theorem automaton_new (al : Alphabet) (name : String) : (new al name).automaton = .new al name := by
  rw [Automaton.new_eq]
  rfl

theorem Kept.agrees (h : x.Kept) : x.Agrees := by
  induction h with
  | new al name =>
    have hempty : Agrees ⟨⟨[], al, ∅, 0, ∅, ∅⟩, ∅⟩ := fun _ => rfl
    exact (hempty.addState name).2.2
  | @decoded bs a h => exact fun n => get?_ofList_zipIdx n a.names
  | apply h op ih => exact (ih.apply op).2

theorem Kept.exists_after (h : x.Kept) (ops : List Operation) :
    ∃ y, Kept y ∧ y.automaton = x.automaton.after ops := by
  refine List.foldlRecOn ops Automaton.apply (motive := fun a => ∃ y, Kept y ∧ y.automaton = a) ⟨x, h, rfl⟩ ?_
  rintro _ ⟨y, hy, rfl⟩ op -
  exact ⟨y.apply op, hy.apply op, (hy.agrees.apply op).1⟩

theorem exists_kept {o : Origin} {a : Automaton} (h : o.automaton? = some a) :
    ∃ x, Kept x ∧ x.automaton = a := by
  by_cases hd : o.isDecoded = true
  · cases o with
    | bytes bs => exact ⟨.ofDecoded a, .decoded h, rfl⟩
    | _ => cases hd
  · obtain ⟨al, name, ops, rfl⟩ := Origin.becomes h (by simpa using hd)
    obtain ⟨x, hx, hx'⟩ := (Kept.new al name).exists_after ops
    exact ⟨x, hx, automaton_new al name ▸ hx'⟩

end Indexed

namespace Automaton

/-- **Looking a name up gives its last position in the table, throughout every history.** Names are not
repeated unless the automaton was decoded. Further operations change no handle and no name that was there. The
index that is kept on the way gives the same handles. -/
theorem lookups_after {o : Origin} {a : Automaton} (h : o.automaton? = some a) (ops : List Operation) :
    (∀ n q, (a.after ops).state? n = some q ↔ IsLastAt n (a.after ops).names q) ∧
    (∀ n, (a.after ops).state? n = none ↔ n ∉ (a.after ops).names) ∧
    (∀ n q, (a.after ops).state? n = some q → (a.after ops).name? q = some n) ∧
    (o.isDecoded = false → (a.after ops).names.Nodup) ∧
    (∀ more n q, (a.after ops).state? n = some q → ((a.after ops).after more).state? n = some q) ∧
    (∀ more n q, (a.after ops).name? q = some n → ((a.after ops).after more).name? q = some n) ∧
    (∃ x : Indexed, x.Kept ∧ x.automaton = a.after ops) ∧
    ∀ x : Indexed, x.Kept → x.automaton = a.after ops → ∀ n, x.state? n = (a.after ops).state? n := by
  obtain ⟨x, hx, rfl⟩ := Indexed.exists_kept h
  refine ⟨fun n q => lastIndex?_eq_some_iff, fun n => state?_eq_none, fun n q hq => name?_of_state? hq,
    fun hd => nodup_names_after ops (Origin.nodup_names h hd), fun more n q hq => state?_after_of_some more hq,
    fun more n q hq => name?_after_of_some more hq, hx.exists_after ops, ?_⟩
  rintro y hy hya n
  rw [hy.agrees n, hya]

/-- An automaton whose table repeats a name. -/
def repeated : Automaton where
  names := ["p", "q", "p"]
  alphabet := .ofSymbols ['a']
  states := .below 3
  initial := 0
  finals := ∅
  transitions := ∅

theorem automaton?_repeated : (Origin.bytes repeated.encode).automaton? = some repeated := by
  have hs : repeated.Storable := by constructor <;> decide
  exact hs.automaton?_encode

/-- The decoder gives the automaton `repeated`, where the last of the two states named `p` is found, then and
after further names are declared. -/
theorem lookups_repeated :
    (Origin.bytes repeated.encode).automaton? = some repeated ∧
      (repeated.after [.addState "r", .addState "q"]).state? "p" = some 2 ∧
      IsLastAt "p" (repeated.after [.addState "r", .addState "q"]).names 2 ∧
      (repeated.after [.addState "r", .addState "q"]).state? "s" = none ∧
      (∀ more, ((repeated.after [.addState "r", .addState "q"]).after more).state? "r" = some 3) ∧
      ∃ x : Indexed, x.Kept ∧ x.automaton = repeated.after [.addState "r", .addState "q"] ∧
        x.state? "p" = some 2 := by
  obtain ⟨hlast, hnone, -, -, hkeep, -, ⟨x, hx, hxa⟩, hindex⟩ :=
    lookups_after automaton?_repeated [.addState "r", .addState "q"]
  have hp : (repeated.after [.addState "r", .addState "q"]).state? "p" = some 2 := by decide
  have hr : (repeated.after [.addState "r", .addState "q"]).state? "r" = some 3 := by decide
  exact ⟨automaton?_repeated, hp, (hlast "p" 2).1 hp, (hnone "s").2 (by decide),
    fun more => hkeep more "r" 3 hr, x, hx, hxa, (hindex x hx hxa "p").trans hp⟩

end Automaton

end FiniteAutomata
