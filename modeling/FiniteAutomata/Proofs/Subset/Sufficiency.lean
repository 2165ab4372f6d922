import Mathlib.Algebra.Group.Nat.Defs
import Mathlib.Data.List.Nodup
import Mathlib.Data.List.Perm.Subperm
import Mathlib.Data.List.Sublists
import FiniteAutomata.Proofs.Subset.Ceiling
import FiniteAutomata.Proofs.Subset.Idempotence
import FiniteAutomata.Proofs.Subset.Limits

/-!
# Limits that are enough

The sets that the construction meets are those reached from the set of the initial state by merged
transitions, in whichever order they are met. A construction stops early only when it has met as many sets as
its limit allows and then meets another one. So whether a limit is enough is a matter of the number of reached
sets alone (`determinize_limits`).
-/
namespace FiniteAutomata

namespace Automaton

/-- The sets that are reached from the set of the initial state: from a set, on a symbol for which some
member has an entry, to the union of the destinations of its members. -/
inductive Reached (a : Automaton) : StateSet → Prop where
  | initial : a.Reached (.singleton a.initial)
  | merge {s t : StateSet} {c : Char} (h : a.Reached s) (hentry : ∃ m ∈ s, ∃ u, a.successors? m c = some u)
      (ht : ∀ r, r ∈ t ↔ ∃ m ∈ s, ∃ u, a.successors? m c = some u ∧ r ∈ u) : a.Reached t

/-- No more than `n` sets are reached. -/
def ReachedWithin (a : Automaton) (n : Nat) : Prop :=
  ∀ sets : List StateSet, sets.Nodup → (∀ s ∈ sets, a.Reached s) → sets.length ≤ n

variable {a : Automaton}

theorem Reached.of_mem_merged {s t : StateSet} {c : Char} (h : a.Reached s)
    (ht : (c, t) ∈ (a.merged s).entries) : a.Reached t := by
  obtain ⟨rfl, hentry⟩ := get?_merged_eq_some.1 (Table.get?_eq_some.2 ht)
  exact h.merge hentry fun r => mem_step

theorem Reached.declared (hv : a.Valid) {s : StateSet} (h : a.Reached s) : ∀ q ∈ s, q ∈ a.states := by
  induction h with
  | initial =>
    intro q hq
    rw [StateSet.mem_singleton.1 hq]
    exact hv.initial
  | merge _ _ ht _ =>
    intro r hr
    obtain ⟨m, -, u, hu, hr⟩ := (ht r).1 hr
    exact hv.closed.targets m _ u hu r hr

end Automaton

/-! ## Finitely many sets -/

/-- There are as many sets among the members of a set as there are sublists of its list. -/
theorem StateSet.length_le_two_pow {s : StateSet} {sets : List StateSet} (hn : sets.Nodup)
    (h : ∀ t ∈ sets, ∀ q ∈ t, q ∈ s) : sets.length ≤ 2 ^ s.size := by
  have hinj : Function.Injective toList := by
    intro t u e
    exact StateSet.ext fun q => by rw [← mem_toList, e, mem_toList]
  have hnodup : (sets.map toList).Nodup := hn.map hinj
  have hsub : sets.map toList ⊆ s.toList.sublists := by
    intro l hl
    obtain ⟨t, ht, rfl⟩ := List.mem_map.1 hl
    -- the members of a part are those of the whole that pass the test of being in the part
    have e : t.toList = s.toList.filter (· ∈ t) := by
      refine eq_of_mem_iff t.ascending (s.ascending.filter _) fun q => ?_
      rw [List.mem_filter, mem_toList, mem_toList, decide_eq_true_iff]
      exact ⟨fun hq => ⟨h t ht q hq, hq⟩, fun hq => hq.2⟩
    rw [List.mem_sublists, e]
    exact List.filter_sublist
  have hle := (List.subperm_of_subset hnodup hsub).length_le
  rwa [List.length_map, List.length_sublists] at hle

theorem Automaton.reachedWithin_two_pow {a : Automaton} (hv : a.Valid) : a.ReachedWithin (2 ^ a.size) := by
  intro sets hn hsets
  exact StateSet.length_le_two_pow hn fun s hs => (hsets s hs).declared hv

namespace Construction

variable {a : Automaton} {limit q : Nat} {k k' : Construction} {s : StateSet} {found : List StateSet}

/-! ## Runs that are not stopped -/

/-- Only reached sets were met. -/
def MeetsReached (a : Automaton) (k : Construction) : Prop := ∀ s q, k.ids.get? s = some q → a.Reached s

theorem meetsReached_start (a : Automaton) : MeetsReached a (start a) := by
  intro s q hs
  rw [start_eq] at hs
  by_cases e : s = .singleton a.initial
  · rw [e]
    exact .initial
  · rw [Table.get?_insert_of_ne _ e, Table.get?_empty] at hs
    cases hs

/-- A reached set that was not met yet leaves the sets that were met below the number of those reached. -/
theorem MeetsReached.size_lt (M : MeetsReached a k) (hlimit : a.ReachedWithin limit) (hs : a.Reached s)
    (hnew : k.ids.get? s = none) : k.ids.size < limit := by
  have hnodup : (s :: k.ids.keys).Nodup := by
    refine List.nodup_cons.2 ⟨fun hm => ?_, k.ids.nodup_keys⟩
    obtain ⟨q, hq⟩ := Table.mem_keys.1 hm
    rw [hnew] at hq
    cases hq
  have hle := hlimit _ hnodup fun t ht => by
    rcases List.mem_cons.1 ht with rfl | ht
    · exact hs
    · obtain ⟨q, hq⟩ := Table.mem_keys.1 ht
      exact M t q hq
  rwa [List.length_cons, Table.keys, List.length_map] at hle

theorem MeetsReached.exists_visit (M : MeetsReached a k) (hlimit : a.ReachedWithin limit)
    (hs : a.Reached s) : ∃ q k', k.visit a limit s = .ok (q, k') ∧ MeetsReached a k' := by
  unfold Construction.visit
  split
  · exact ⟨_, k, rfl, M⟩
  · rename_i hnew
    rw [if_pos (M.size_lt hlimit hs hnew)]
    refine ⟨_, _, rfl, fun t q ht => ?_⟩
    by_cases e : t = s
    · rw [e]
      exact hs
    · rw [addComposite_eq, Table.get?_insert_of_ne _ e] at ht
      exact M t q ht

theorem MeetsReached.exists_connect {es : List (Char × StateSet)} (M : MeetsReached a k)
    (hlimit : a.ReachedWithin limit) (hes : ∀ e ∈ es, a.Reached e.2) :
    ∃ k', k.connect a limit q es = .ok k' ∧ MeetsReached a k' := by
  induction es generalizing k with
  | nil => exact ⟨k, rfl, M⟩
  | cons e es ih =>
    obtain ⟨r, k₁, hv, M₁⟩ := M.exists_visit hlimit (hes e (by simp))
    have M₂ : MeetsReached a (k₁.addTransition q e.1 r) := M₁
    obtain ⟨k', hk', M'⟩ := ih M₂ fun f hf => hes f (List.mem_cons_of_mem _ hf)
    rw [Construction.connect, hv]
    exact ⟨k', hk', M'⟩

/-- **No set stops a construction when no more sets are reached than its limit allows.** -/
theorem MeetsReached.exists_process (M : MeetsReached a k) (hlimit : a.ReachedWithin limit) (s : StateSet) :
    ∃ k', k.process a limit s = .ok k' ∧ MeetsReached a k' := by
  unfold Construction.process
  split
  · exact ⟨k, rfl, M⟩
  · rename_i q hq
    split
    · exact ⟨k, rfl, M⟩
    · have M₁ : MeetsReached a (k.finish a q s) := M
      exact M₁.exists_connect hlimit fun e he => (M s q hq).of_mem_merged he

theorem MeetsReached.exists_run (M : MeetsReached a k) (hlimit : a.ReachedWithin limit) :
    ∃ k', k.run a limit = .ok k' := by
  fun_induction Construction.run a limit k with
  | case1 k hw => exact ⟨k, rfl⟩
  | case2 k s rest hw k₁ hp =>
    have M₁ : MeetsReached a { k with worklist := rest } := M
    obtain ⟨k', hk', -⟩ := M₁.exists_process hlimit s
    rw [hk'] at hp
    cases hp
  | case3 k s rest hw k₁ hp ih =>
    have M₁ : MeetsReached a { k with worklist := rest } := M
    obtain ⟨k', hk', M'⟩ := M₁.exists_process hlimit s
    rw [Except.ok.inj (hk'.symm.trans hp)] at M'
    exact ih M'

theorem exists_construct (hlimit : a.ReachedWithin limit) : ∃ k, construct a limit = .ok k := by
  have hne : limit ≠ 0 := by
    have := hlimit [.singleton a.initial] (by simp) fun s hs => by
      rw [List.mem_singleton.1 hs]
      exact .initial
    rw [List.length_singleton] at this
    omega
  obtain ⟨k, hk⟩ := (meetsReached_start a).exists_run hlimit
  exact ⟨k, by rw [construct, if_neg hne, hk]⟩

/-! ## The sets that a construction ends with -/

/-- The sets that were met so far are reached, by induction on the order in which they were met. -/
theorem Progress.reached {taken : Nat} (P : Progress a k found taken (Processed a found taken))
    (O : Originates found (Processed a found taken)) (hs : s ∈ found) : a.Reached s := by
  obtain ⟨r, hr⟩ := List.mem_iff_getElem?.1 hs
  induction r using Nat.strongRecOn generalizing s with
  | ind r ih =>
    rcases Nat.eq_zero_or_pos r with rfl | hpos
    · rw [← Option.some.inj (P.first.symm.trans hr)]
      exact .initial
    · obtain ⟨p, c, t, hp, ⟨-, m, hm, hmt⟩, ht⟩ := O r hpos (List.getElem?_eq_some_iff.1 hr).1
      obtain rfl := Option.some.inj (hr.symm.trans ht)
      exact (ih p hp (List.mem_of_getElem? hm) hm).of_mem_merged (Table.get?_eq_some.1 hmt)

/-- **A finished construction has met the sets that are reached, and no others.** -/
theorem Progress.mem_found_iff (P : Progress a k found found.length (Processed a found found.length))
    (O : Originates found (Processed a found found.length)) : s ∈ found ↔ a.Reached s := by
  refine ⟨P.reached O, fun hs => ?_⟩
  induction hs with
  | initial => exact List.mem_of_getElem? P.first
  | @merge s t c _ hentry ht ih =>
    obtain ⟨q, hq⟩ := List.mem_iff_getElem?.1 ih
    have e : t = a.step s c := StateSet.ext fun r => by rw [ht, Automaton.mem_step]
    have hlt := (List.getElem?_eq_some_iff.1 hq).1
    exact (P.written q c t ⟨hlt, s, hq, Automaton.get?_merged_eq_some.2 ⟨e, hentry⟩⟩).2

/-- The construction stays within a limit exactly if no more sets are reached. -/
theorem exists_construct_iff : (∃ k, construct a limit = .ok k) ↔ a.ReachedWithin limit := by
  constructor
  · rintro ⟨k, hk⟩ sets hn hsets
    obtain ⟨found, P, O⟩ := progress_construct hk
    have W := within_construct hk
    have hle := (List.subperm_of_subset hn fun s hs => (P.mem_found_iff O).2 (hsets s hs)).length_le
    rw [← P.length_names, W.names] at hle
    exact Nat.le_trans hle W.le
  · exact exists_construct

end Construction

namespace Automaton

variable {a : Automaton}

/-- The sets that are reached, each listed once. -/
theorem exists_reached (hv : a.Valid) : ∃ sets : List StateSet, sets.Nodup ∧ ∀ s, s ∈ sets ↔ a.Reached s := by
  obtain ⟨k, hk⟩ := Construction.exists_construct (reachedWithin_two_pow hv)
  obtain ⟨found, P, O⟩ := Construction.progress_construct hk
  exact ⟨found, P.nodup, fun s => P.mem_found_iff O⟩

theorem reachedWithin_iff {sets : List StateSet} {n : Nat} (hn : sets.Nodup)
    (hsets : ∀ s, s ∈ sets ↔ a.Reached s) : a.ReachedWithin n ↔ sets.length ≤ n := by
  constructor
  · intro h
    exact h sets hn fun s => (hsets s).1
  · intro h others ho hothers
    have hsub : others ⊆ sets := fun s hs => (hsets s).2 (hothers s hs)
    exact Nat.le_trans (List.subperm_of_subset ho hsub).length_le h

theorem determinize_of_not_deterministic (hv : a.Valid) (hn : a.isDeterministic = false) (limit : Nat) :
    a.determinize limit = a.subsetConstruction limit := by
  rw [determinize, problem?_eq_none_iff.2 hv]
  simp only
  rw [if_neg (by rw [hn]; exact Bool.false_ne_true)]

/-- **A limit is enough exactly if it is not below the number of reached sets, and limits that are enough
give the same result. A deterministic automaton needs no limit.** -/
theorem determinize_limits (hv : a.validate = .ok ()) :
    (a.isDeterministic = false → ∃ sets : List StateSet, sets.Nodup ∧ (∀ s, s ∈ sets ↔ a.Reached s) ∧
      (∀ limit, (∃ d, a.determinize limit = .ok d) ↔ sets.length ≤ limit) ∧
      (∀ limit < sets.length, a.determinize limit = .error (.limitExceeded limit)) ∧
      ∀ limit limit' d d', a.determinize limit = .ok d → a.determinize limit' = .ok d' →
        d.automaton = d'.automaton ∧ d.composites = d'.composites) ∧
    (a.isDeterministic = true → ∀ limit, ∃ d, a.determinize limit = .ok d) := by
  have hv := validate_eq_ok_iff.1 hv
  refine ⟨fun hn => ?_, fun hd limit => ?_⟩
  · obtain ⟨sets, hnodup, hsets⟩ := exists_reached hv
    have hiff : ∀ limit, (∃ k, Construction.construct a limit = .ok k) ↔ sets.length ≤ limit := by
      intro limit
      rw [Construction.exists_construct_iff, reachedWithin_iff hnodup hsets]
    have hresult := determinize_of_not_deterministic hv hn
    refine ⟨sets, hnodup, hsets, fun limit => ?_, fun limit hlt => ?_, ?_⟩
    · rw [← hiff, hresult, subsetConstruction]
      cases Construction.construct a limit <;> simp
    · have hstop : ¬ ∃ k, Construction.construct a limit = .ok k := by
        rw [hiff]
        omega
      rw [hresult, subsetConstruction]
      cases hk : Construction.construct a limit with
      | error k => rfl
      | ok k => exact absurd ⟨k, hk⟩ hstop
    · intro limit limit' d d' h h'
      rw [determinize_eq h h']
      exact ⟨rfl, rfl⟩
  · exact ⟨_, determinize_of_deterministic hv hd limit⟩

/-- The automaton `forked` reaches four sets: a limit of four is enough, one of three is not. -/
theorem determinize_limits_forked :
    forked.validate = .ok () ∧ forked.isDeterministic = false ∧
      ∃ sets : List StateSet, (∀ s, s ∈ sets ↔ forked.Reached s) ∧ sets.length = 4 ∧
        forked.determinize 3 = .error (.limitExceeded 3) := by
  have hv : forked.validate = .ok () := by decide
  have hn : forked.isDeterministic = false := by decide
  obtain ⟨sets, -, hsets, hiff, hstop, -⟩ := (determinize_limits hv).1 hn
  have hthree : ¬ sets.length ≤ 3 := by
    rw [← hiff]
    rintro ⟨d, hd⟩
    have h : (forked.determinize 3).toBool = false := by decide +kernel
    rw [hd] at h
    cases h
  have hlen : sets.length = 4 := by
    have := (hiff 4).1 determinize_forked
    omega
  exact ⟨hv, hn, sets, hsets, hlen, hstop 3 (by omega)⟩

end Automaton

end FiniteAutomata
