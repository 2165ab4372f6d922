/-!
# Sets of states

A state is a handle, a natural number: its position in the table of names of an automaton. A set of
states is kept as the strictly ascending list of its members, so that sets with the same members are
equal (`StateSet.ext`), whatever the order in which they were filled. A set serves both as the
destinations of a transition and as the identity of a composite state.
-/
namespace FiniteAutomata

/-- A set of states, as the strictly ascending list of its members. -/
structure StateSet where
  toList : List Nat
  ascending : toList.Pairwise (· < ·)
  deriving DecidableEq

namespace StateSet

/-- Puts a handle at its place in an ascending list. -/
def insertIn (q : Nat) : List Nat → List Nat
  | [] => [q]
  | p :: ps => if q < p then q :: p :: ps else if q = p then p :: ps else p :: insertIn q ps

theorem mem_insertIn {p q : Nat} {ps : List Nat} :
    p ∈ insertIn q ps ↔ p = q ∨ p ∈ ps := by
  induction ps with
  | nil => simp [insertIn]
  | cons r rs ih => unfold insertIn; grind

theorem ascending_insertIn (q : Nat) {ps : List Nat} (h : ps.Pairwise (· < ·)) :
    (insertIn q ps).Pairwise (· < ·) := by
  induction ps with
  | nil => simp [insertIn]
  | cons r rs ih =>
    obtain ⟨hr, hs⟩ := List.pairwise_cons.1 h
    unfold insertIn
    split
    · rename_i hlt
      refine List.pairwise_cons.2 ⟨fun p hp => ?_, h⟩
      rcases List.mem_cons.1 hp with rfl | hp
      · exact hlt
      · exact Nat.lt_trans hlt (hr p hp)
    · split
      · exact h
      · refine List.pairwise_cons.2 ⟨fun p hp => ?_, ih hs⟩
        rcases mem_insertIn.1 hp with rfl | hp
        · omega
        · exact hr p hp

/-- Ascending lists with the same members are the same list. -/
theorem eq_of_mem_iff {ps qs : List Nat} (hp : ps.Pairwise (· < ·)) (hq : qs.Pairwise (· < ·))
    (h : ∀ x, x ∈ ps ↔ x ∈ qs) : ps = qs := by
  induction ps generalizing qs with
  | nil =>
    cases qs with
    | nil => rfl
    | cons b bs => exact absurd ((h b).2 (by simp)) (by simp)
  | cons a as ih =>
    cases qs with
    | nil => exact absurd ((h a).1 (by simp)) (by simp)
    | cons b bs =>
      obtain ⟨ha, hs⟩ := List.pairwise_cons.1 hp
      obtain ⟨hb, ht⟩ := List.pairwise_cons.1 hq
      have hab : a = b := by
        rcases List.mem_cons.1 ((h a).1 (by simp)) with e | hm
        · exact e
        · rcases List.mem_cons.1 ((h b).2 (by simp)) with e | hm'
          · exact e.symm
          · have := hb a hm; have := ha b hm'; omega
      subst hab
      refine congrArg _ (ih hs ht fun x => ⟨fun hm => ?_, fun hm => ?_⟩)
      · rcases List.mem_cons.1 ((h x).1 (by simp [hm])) with rfl | hm'
        · exact absurd (ha _ hm) (by omega)
        · exact hm'
      · rcases List.mem_cons.1 ((h x).2 (by simp [hm])) with rfl | hm'
        · exact absurd (hb _ hm) (by omega)
        · exact hm'

/-- A search in an ascending list ends at the least member that fits. -/
theorem find?_eq_some_of_ascending {ps : List Nat} (h : ps.Pairwise (· < ·)) {p : Nat → Bool} {q : Nat} :
    ps.find? p = some q ↔ q ∈ ps ∧ p q = true ∧ ∀ r ∈ ps, r < q → p r = false := by
  induction ps with
  | nil => simp
  | cons a as ih =>
    obtain ⟨ha, hs⟩ := List.pairwise_cons.1 h
    cases hp : p a with
    | true =>
      rw [List.find?_cons_of_pos hp, Option.some.injEq]
      constructor
      · rintro rfl
        refine ⟨List.mem_cons_self, hp, fun r hr hlt => ?_⟩
        rcases List.mem_cons.1 hr with rfl | hr
        · exact absurd hlt (Nat.lt_irrefl r)
        · exact absurd hlt (Nat.lt_asymm (ha r hr))
      · rintro ⟨hq, -, hleast⟩
        rcases List.mem_cons.1 hq with rfl | hq
        · rfl
        · have hfalse := hleast a List.mem_cons_self (ha q hq)
          rw [hp] at hfalse
          cases hfalse
    | false =>
      rw [List.find?_cons_of_neg (by simp [hp]), ih hs]
      constructor
      · rintro ⟨hq, hpq, hleast⟩
        exact ⟨List.mem_cons_of_mem a hq, hpq, List.forall_mem_cons.2 ⟨fun _ => hp, hleast⟩⟩
      · rintro ⟨hq, hpq, hleast⟩
        refine ⟨(List.mem_cons.1 hq).resolve_left ?_, hpq, fun r hr => hleast r (List.mem_cons_of_mem a hr)⟩
        rintro rfl
        rw [hp] at hpq
        cases hpq

/-! ### Operations -/

/-- The set without members. -/
def empty : StateSet := ⟨[], .nil⟩

instance : EmptyCollection StateSet := ⟨empty⟩
instance : Inhabited StateSet := ⟨empty⟩
instance : Membership Nat StateSet := ⟨fun s q => q ∈ s.toList⟩

instance (q : Nat) (s : StateSet) : Decidable (q ∈ s) := inferInstanceAs (Decidable (q ∈ s.toList))

/-- Adds a member. -/
def insert (s : StateSet) (q : Nat) : StateSet :=
  ⟨insertIn q s.toList, ascending_insertIn q s.ascending⟩

/-- The set of one member. -/
def singleton (q : Nat) : StateSet := ⟨[q], by simp⟩

/-- Whether a state is a member. -/
def contains (s : StateSet) (q : Nat) : Bool := s.toList.contains q

/-- Adds every member of a list. -/
def insertAll (s : StateSet) (qs : List Nat) : StateSet := qs.foldl insert s

/-- The set of the members of a list. -/
def ofList (qs : List Nat) : StateSet := empty.insertAll qs

/-- The members of either set. -/
def union (s t : StateSet) : StateSet := s.insertAll t.toList

instance : Union StateSet := ⟨union⟩

/-- The number of members. -/
def size (s : StateSet) : Nat := s.toList.length

/-- Whether the set has no member. -/
def isEmpty (s : StateSet) : Bool := s.toList.isEmpty

/-- The only member of a set of one member. -/
def only? (s : StateSet) : Option Nat :=
  match s.toList with
  | [q] => some q
  | _ => none

/-- The states below a bound. -/
def below (n : Nat) : StateSet := ⟨List.range n, List.pairwise_lt_range⟩

/-- Sets are ordered lexicographically, by their members in ascending order. -/
instance : Ord StateSet := ⟨fun s t => compare s.toList t.toList⟩

instance : Std.TransOrd StateSet where
  eq_swap {s t} := Std.OrientedOrd.eq_swap (a := s.toList) (b := t.toList)
  isLE_trans {s t u} := Std.TransOrd.isLE_trans (a := s.toList) (b := t.toList) (c := u.toList)

instance : Std.LawfulEqOrd StateSet where
  compare_self {s} := Std.ReflOrd.compare_self (a := s.toList)
  eq_of_compare {s t} h := by
    have e : s.toList = t.toList := Std.LawfulEqOrd.eq_of_compare h
    cases s; cases t; cases e; rfl

/-! ### Members -/

@[simp] theorem mem_toList {q : Nat} {s : StateSet} : q ∈ s.toList ↔ q ∈ s := Iff.rfl

@[simp] theorem not_mem_empty (q : Nat) : q ∉ (∅ : StateSet) := by
  intro h; exact List.not_mem_nil h

@[simp] theorem mem_singleton {p q : Nat} : p ∈ singleton q ↔ p = q := List.mem_singleton

theorem singleton_inj {p q : Nat} : singleton p = singleton q ↔ p = q := by
  simp only [singleton, mk.injEq, List.cons.injEq, and_true]

@[simp] theorem mem_insert {p q : Nat} {s : StateSet} : p ∈ s.insert q ↔ p = q ∨ p ∈ s :=
  mem_insertIn

@[simp] theorem mem_insertAll {p : Nat} {s : StateSet} {qs : List Nat} :
    p ∈ s.insertAll qs ↔ p ∈ s ∨ p ∈ qs := by
  induction qs generalizing s with
  | nil => simp [insertAll]
  | cons q qs ih =>
    have e : s.insertAll (q :: qs) = (s.insert q).insertAll qs := rfl
    rw [e, ih]; simp; grind

@[simp] theorem mem_ofList {p : Nat} {qs : List Nat} : p ∈ ofList qs ↔ p ∈ qs := by
  have h : p ∉ empty := not_mem_empty p
  simp [ofList, h]

@[simp] theorem mem_union {p : Nat} {s t : StateSet} : p ∈ s ∪ t ↔ p ∈ s ∨ p ∈ t :=
  mem_insertAll

@[simp] theorem mem_below {p n : Nat} : p ∈ below n ↔ p < n := List.mem_range

@[simp] theorem contains_iff {q : Nat} {s : StateSet} : s.contains q = true ↔ q ∈ s := by
  simp [contains]

/-- Sets with the same members are equal. -/
@[ext] theorem ext {s t : StateSet} (h : ∀ q, q ∈ s ↔ q ∈ t) : s = t := by
  have e := eq_of_mem_iff s.ascending t.ascending h
  cases s; cases t; cases e; rfl

/-- A set is filled again from its members. -/
theorem ofList_toList (s : StateSet) : ofList s.toList = s := ext fun q => by simp

@[simp] theorem isEmpty_iff {s : StateSet} : s.isEmpty = true ↔ s = ∅ := by
  obtain ⟨l, hl⟩ := s
  cases l with
  | nil => exact ⟨fun _ => rfl, fun _ => rfl⟩
  | cons q l => exact ⟨nofun, nofun⟩

theorem exists_mem_of_ne_empty {s : StateSet} (h : s ≠ ∅) : ∃ q, q ∈ s := by
  refine List.exists_mem_of_ne_nil s.toList fun e => h ?_
  rw [← isEmpty_iff, isEmpty, e]
  rfl

theorem insert_below (n : Nat) : (below n).insert n = below (n + 1) :=
  ext fun q => by simp only [mem_insert, mem_below]; omega

/-- A set of one member is a singleton. -/
theorem size_eq_one_iff {s : StateSet} : s.size = 1 ↔ ∃ q, s = singleton q := by
  obtain ⟨l, hl⟩ := s
  simp only [size, singleton, List.length_eq_one_iff, mk.injEq]

end StateSet

end FiniteAutomata
