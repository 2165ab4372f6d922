import Mathlib.Data.List.Perm.Subperm
import FiniteAutomata.Proofs.Automaton.Tidy
import FiniteAutomata.Proofs.Except
import FiniteAutomata.Proofs.Subset.ReachableSubsets

/-!
# How composite states are named

A composite state takes the joined names of its members where no earlier one has it, and their names between
braces with as few quote marks as needed where one has. So no two composite states share a name, whatever the
names of the members are: repeated, missing or spelled like a composite name.

Main theorem `names_determinize`: the handles, the names and the look-up by name of a determinized automaton.
-/
namespace FiniteAutomata

/-! ## The least number of marks -/

/-- The name, followed by a number of quote marks. -/
def marked (name : String) (n : Nat) : String := name ++ String.join (List.replicate n "'")

theorem marked_zero (name : String) : marked name 0 = name := String.append_empty

theorem marked_succ (name : String) (n : Nat) : marked name (n + 1) = marked (name ++ "'") n := by
  rw [marked, marked, List.replicate_succ, String.join_cons, String.append_assoc]

theorem exists_markName_eq (taken : List String) (fuel : Nat) (name : String) :
    ∃ n, markName taken fuel name = marked name n ∧ ∀ m < n, marked name m ∈ taken := by
  induction fuel generalizing name with
  | zero => exact ⟨0, (marked_zero name).symm, nofun⟩
  | succ fuel ih =>
    unfold markName
    split
    · rename_i hm
      obtain ⟨n, hn, hless⟩ := ih (name ++ "'")
      refine ⟨n + 1, by rw [hn, marked_succ], fun m hlt => ?_⟩
      cases m with
      | zero => rwa [marked_zero]
      | succ m =>
        rw [marked_succ]
        exact hless m (Nat.lt_of_succ_lt_succ hlt)
    · exact ⟨0, (marked_zero name).symm, nofun⟩

/-- An unused name has the least number of marks with which it is not taken. -/
theorem exists_unusedName_eq (taken : List String) (name : String) :
    ∃ n, unusedName taken name = marked name n ∧ ∀ m < n, marked name m ∈ taken :=
  exists_markName_eq taken taken.length name

theorem length_marked (name : String) (n : Nat) : (marked name n).length = name.length + n := by
  induction n generalizing name with
  | zero => rw [marked_zero, Nat.add_zero]
  | succ n ih => rw [marked_succ, ih, length_append_mark, Nat.add_assoc, Nat.add_comm 1]

/-- Names with different numbers of marks differ, so no more of them are taken than names are. -/
theorem marks_le_length {taken : List String} {name : String} {n : Nat}
    (h : ∀ m < n, marked name m ∈ taken) : n ≤ taken.length := by
  have hnodup : ((List.range n).map (marked name)).Nodup := by
    refine List.pairwise_map.2 (List.nodup_range.imp fun {i j} hne e => hne ?_)
    have := congrArg String.length e
    rw [length_marked, length_marked] at this
    omega
  have hsub : (List.range n).map (marked name) ⊆ taken := by
    intro t ht
    obtain ⟨m, hm, rfl⟩ := List.mem_map.1 ht
    exact h m (List.mem_range.1 hm)
  have hle := (List.subperm_of_subset hnodup hsub).length_le
  rwa [List.length_map, List.length_range] at hle

namespace Automaton

/-- Some state with a smaller handle has the name. -/
def TakenBelow (a : Automaton) (q : Nat) (name : String) : Prop := ∃ p < q, a.name? p = some name

variable {a : Automaton} {q limit : Nat} {name : String} {d : Determinized}

theorem mem_take_names : name ∈ a.names.take q ↔ a.TakenBelow q name := by
  simp only [List.mem_iff_getElem?, List.getElem?_take, Option.ite_none_right_eq_some]
  rfl

/-- A composite name is the joined one, or, if that is taken, the braced one with as few marks as needed. -/
theorem compositeName_cases (a : Automaton) (taken : List String) (s : StateSet) :
    (a.joinedName s ∉ taken → a.compositeName taken s = a.joinedName s) ∧
    (a.joinedName s ∈ taken → ∃ n, a.compositeName taken s = marked (a.bracedName s) n ∧
      marked (a.bracedName s) n ∉ taken ∧ ∀ m < n, marked (a.bracedName s) m ∈ taken) := by
  unfold compositeName
  refine ⟨fun h => if_neg h, fun h => ?_⟩
  obtain ⟨n, hn, hless⟩ := exists_unusedName_eq taken (a.bracedName s)
  refine ⟨n, (if_pos h).trans hn, ?_, hless⟩
  rw [← hn]
  exact unusedName_not_mem taken _

/-- **The handles of a determinized automaton are those below the number of its composite states, which are
told by their names.** A name is made of the names of the members, in the order of their handles, and differs
from those of all smaller handles. -/
theorem names_determinize (hn : a.isDeterministic = false) (h : a.determinize limit = .ok d) :
    ∃ k, d.automaton.states = .below k ∧ d.automaton.names.length = k ∧ d.automaton.names.Nodup ∧
      (∀ q, (∃ s, d.composites.get? q = some s) ↔ q < k) ∧
      ∀ q s, d.composites.get? q = some s →
        ∃ name, d.automaton.name? q = some name ∧ d.automaton.state? name = some q ∧
          (¬ d.automaton.TakenBelow q (a.joinedName s) → name = a.joinedName s) ∧
          (d.automaton.TakenBelow q (a.joinedName s) → ∃ n, name = marked (a.bracedName s) n ∧
            ¬ d.automaton.TakenBelow q (marked (a.bracedName s) n) ∧
            ∀ m < n, d.automaton.TakenBelow q (marked (a.bracedName s) m)) := by
  obtain ⟨-, k, found, rfl, P, O⟩ := exists_progress_of_determinize hn h
  refine ⟨found.length, P.states, P.length_names, P.nodup_names, fun q => ?_, fun q s hq => ?_⟩
  · rw [← (P.isSubsetAutomaton O).declared, isDeclared_iff, P.states, StateSet.mem_below]
  · have hname := P.named q s ((P.composites q).symm.trans hq)
    have hcases := a.compositeName_cases (k.result.names.take q) s
    simp only [mem_take_names] at hcases
    exact ⟨_, hname, (state?_eq_some_iff P.nodup_names).2 hname, hcases⟩

/-- The joined names of the second and the third composite state of `forked` are the same, so the third one has
its members between braces. -/
theorem names_determinize_forked :
    forked.isDeterministic = false ∧ ∃ d, forked.determinize 4 = .ok d ∧
      d.automaton.name? 1 = some "xxy" ∧ ∃ n, d.automaton.name? 2 = some (marked "\x7bxx,y\x7d" n) := by
  have hn : forked.isDeterministic = false := by decide
  have h : ((forked.determinize 4).toOption.map fun d => (d.composites.get? 2, d.automaton.name? 1)) =
      some (some (.ofList [3, 4]), some "xxy") := by decide +kernel
  obtain ⟨d, hd, he⟩ := Option.map_eq_some_iff.1 h
  obtain ⟨hcomp, hname⟩ := Prod.mk.inj he
  obtain ⟨k, -, -, -, -, hnames⟩ := names_determinize hn (toOption_eq_some.1 hd)
  obtain ⟨name, htwo, -, -, hbraced⟩ := hnames 2 _ hcomp
  obtain ⟨n, rfl, -⟩ := hbraced ⟨1, by decide, hname⟩
  exact ⟨hn, d, toOption_eq_some.1 hd, hname, n, htwo⟩

end Automaton

end FiniteAutomata
