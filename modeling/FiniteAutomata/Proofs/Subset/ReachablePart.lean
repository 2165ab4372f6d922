import FiniteAutomata.Proofs.Subset.Idempotence
import FiniteAutomata.Proofs.Subset.Naming
import FiniteAutomata.Proofs.Subset.Sufficiency

/-!
# The construction on a deterministic automaton

A deterministic automaton is kept as it is, without a construction. A construction would meet sets of one
member only, those of the states that words lead to. So it ends with the part of the automaton that is reached
from the initial state: the states are renumbered, and keep their names where no two declared states show the
same one.

Main theorem `isReachablePart_subsetConstruction`: the limits that are enough for this construction, and what
it ends with.
-/
namespace FiniteAutomata

/-- The result is the part of `a` that words lead to, each of its states standing for one state of `a`. -/
structure IsReachablePart (a : Automaton) (d : Determinized) : Prop where
  valid : d.automaton.validate = .ok ()
  deterministic : d.automaton.isDeterministic = true
  alphabet : d.automaton.alphabet = a.alphabet
  /-- Exactly the declared states stand for a set. -/
  declared : ∀ q, d.automaton.isDeclared q = true ↔ ∃ s, d.composites.get? q = some s
  /-- The sets are those of one state that some word leads to. -/
  composites : ∀ s, (∃ q, d.composites.get? q = some s) ↔
    ∃ m, s = .singleton m ∧ ∃ w, a.Leads a.initial w m
  /-- No set has two states. -/
  injective : ∀ p q s, d.composites.get? p = some s → d.composites.get? q = some s → p = q
  initial : d.composites.get? d.automaton.initial = some (.singleton a.initial)
  /-- Neither state has a transition on the symbol, or they lead to a state and to the one that it stands
  for. -/
  successors : ∀ q m c, d.composites.get? q = some (.singleton m) →
    (d.automaton.successors? q c = none ∧ a.successors? m c = none) ∨
      ∃ r n, d.automaton.successors? q c = some (.singleton r) ∧ a.successors? m c = some (.singleton n) ∧
        d.composites.get? r = some (.singleton n)
  final : ∀ q m, d.composites.get? q = some (.singleton m) → d.automaton.isFinal q = a.isFinal m
  names : (∀ m ∈ a.states, ∀ n ∈ a.states, a.display m = a.display n → m = n) →
    ∀ q m, d.composites.get? q = some (.singleton m) → d.automaton.name? q = some (a.display m)

namespace Automaton

variable {a : Automaton} {s : StateSet} {m n : Nat} {c : Char}

/-! ## Sets of one member -/

theorem Deterministic.exists_singleton (h : a.Deterministic) (hs : a.successors? m c = some s) :
    ∃ n, s = .singleton n := (h m (some c) s hs).2

theorem Reached.of_successors (h : a.Reached (.singleton m)) (hn : a.successors? m c = some (.singleton n)) :
    a.Reached (.singleton n) :=
  h.merge ⟨m, StateSet.mem_singleton.2 rfl, _, hn⟩ fun r => by simp [hn]

/-- A word leads from a state to another one as the construction does with the sets of these states. -/
theorem Deterministic.reached_of_leads (hd : a.Deterministic) {w : List Char} (h : a.Leads m w n)
    (hm : a.Reached (.singleton m)) : a.Reached (.singleton n) := by
  induction h with
  | refl q => exact hm
  | step hs hr _ ih =>
    obtain ⟨t, rfl⟩ := hd.exists_singleton hs
    rw [StateSet.mem_singleton] at hr
    subst hr
    exact ih (hm.of_successors hs)

/-- **The sets that are reached are those of one state that some word leads to.** -/
theorem Deterministic.reached_iff (hd : a.Deterministic) :
    a.Reached s ↔ ∃ m, s = .singleton m ∧ ∃ w, a.Leads a.initial w m := by
  constructor
  · intro h
    induction h with
    | initial => exact ⟨a.initial, rfl, [], .refl a.initial⟩
    | @merge s t c _ hentry ht ih =>
      obtain ⟨m, rfl, w, hw⟩ := ih
      obtain ⟨m', hm', u, hu⟩ := hentry
      obtain rfl := StateSet.mem_singleton.1 hm'
      obtain ⟨n, rfl⟩ := hd.exists_singleton hu
      have e : t = .singleton n := StateSet.ext fun r => by rw [ht]; simp [hu]
      exact ⟨n, e, w ++ [c], hw.snoc hu (StateSet.mem_singleton.2 rfl)⟩
  · rintro ⟨m, rfl, w, hw⟩
    exact hd.reached_of_leads hw .initial

theorem joinedName_singleton (a : Automaton) (m : Nat) : a.joinedName (.singleton m) = a.display m := by
  have h : a.memberNames (.singleton m) = [a.display m] := rfl
  rw [joinedName, h, String.join_cons, String.join_nil, String.append_empty]

/-- The states that words lead to are the members of a set of declared states, as many as sets are reached. -/
theorem Deterministic.exists_part (hv : a.Valid) (hd : a.Deterministic) :
    ∃ part : StateSet, (∀ q, q ∈ part ↔ ∃ w, a.Leads a.initial w q) ∧
      ∀ limit, a.ReachedWithin limit ↔ part.size ≤ limit := by
  obtain ⟨sets, -, hsets⟩ := exists_reached hv
  have hsingle : ∀ q, StateSet.singleton q ∈ sets ↔ ∃ w, a.Leads a.initial w q := by
    intro q
    rw [hsets, hd.reached_iff]
    constructor
    · rintro ⟨m, e, hw⟩
      rwa [StateSet.singleton_inj.1 e]
    · exact fun hw => ⟨q, rfl, hw⟩
  let part : StateSet := ⟨a.states.toList.filter (.singleton · ∈ sets), a.states.ascending.filter _⟩
  have hpart : ∀ q, q ∈ part ↔ StateSet.singleton q ∈ sets := by
    intro q
    rw [← StateSet.mem_toList, List.mem_filter, decide_eq_true_iff]
    refine and_iff_right_of_imp fun hq => ?_
    exact ((hsets _).1 hq).declared hv q (StateSet.mem_singleton.2 rfl)
  refine ⟨part, fun q => (hpart q).trans (hsingle q), fun limit => ?_⟩
  -- the reached sets are listed once more, by their only members
  have hnodup : (part.toList.map StateSet.singleton).Nodup := by
    exact List.pairwise_map.2 (part.ascending.imp fun hlt e => Nat.ne_of_lt hlt (StateSet.singleton_inj.1 e))
  have hmem : ∀ s, s ∈ part.toList.map StateSet.singleton ↔ a.Reached s := by
    intro s
    rw [List.mem_map]
    constructor
    · rintro ⟨q, hq, rfl⟩
      exact (hsets _).1 ((hpart q).1 hq)
    · intro hs
      obtain ⟨q, rfl, -⟩ := hd.reached_iff.1 hs
      exact ⟨q, (hpart q).2 ((hsets _).2 hs), rfl⟩
  rw [reachedWithin_iff hnodup hmem, List.length_map]
  rfl

end Automaton

namespace Construction

variable {a : Automaton} {k : Construction} {found : List StateSet}

/-- The composite state of one state takes the name of this state: an earlier one with the name would stand
for the same state. -/
theorem Progress.name?_of_singleton {taken : Nat} {written : Nat → Char → StateSet → Prop}
    (P : Progress a k found taken written) (hfound : ∀ s ∈ found, ∃ m ∈ a.states, s = .singleton m)
    (hnames : ∀ m ∈ a.states, ∀ n ∈ a.states, a.display m = a.display n → m = n) {q m : Nat}
    (hq : found[q]? = some (.singleton m)) : k.result.name? q = some (a.display m) := by
  have hdeclared : ∀ {p n : Nat}, found[p]? = some (StateSet.singleton n) → n ∈ a.states := by
    intro p n hp
    obtain ⟨n', hn', e⟩ := hfound _ (List.mem_of_getElem? hp)
    rwa [StateSet.singleton_inj.1 e]
  induction q using Nat.strongRecOn generalizing m with
  | ind q ih =>
    have hfree : a.joinedName (.singleton m) ∉ k.result.names.take q := by
      rw [Automaton.joinedName_singleton, Automaton.mem_take_names]
      rintro ⟨p, hp, hname⟩
      have hlt : p < found.length := Nat.lt_trans hp (List.getElem?_eq_some_iff.1 hq).1
      have hget := List.getElem?_eq_getElem hlt
      obtain ⟨n, -, e⟩ := hfound found[p] (List.getElem_mem hlt)
      rw [e] at hget
      rw [ih p hp hget, Option.some.injEq] at hname
      have hmn := hnames n (hdeclared hget) m (hdeclared hq) hname
      have hpq := (List.getElem?_inj hlt P.nodup).1 (hget.trans (hmn ▸ hq).symm)
      exact Nat.ne_of_lt hp hpq
    have hname := P.named q _ hq
    rwa [(a.compositeName_cases _ _).1 hfree, Automaton.joinedName_singleton] at hname

theorem Progress.isReachablePart (hv : a.Valid) (hd : a.Deterministic)
    (P : Progress a k found found.length (Processed a found found.length))
    (O : Originates found (Processed a found found.length)) :
    IsReachablePart a ⟨k.result, k.composites⟩ := by
  have S := P.isSubsetAutomaton O
  refine ⟨Automaton.validate_eq_ok_iff.2 (P.valid hv), Automaton.isDeterministic_iff.2 P.deterministic,
    S.alphabet, S.declared, fun s => ?_, S.injective, S.initial, fun q m c hq => ?_, fun q m hq => ?_,
    fun hnames q m hq => ?_⟩
  · -- composites
    simp only [P.composites, ← List.mem_iff_getElem?]
    rw [P.mem_found_iff O, hd.reached_iff]
  · -- successors
    cases hs : a.successors? m c with
    | none =>
      refine .inl ⟨S.no_successors q _ c hq fun m' hm' => ?_, rfl⟩
      rwa [StateSet.mem_singleton.1 hm']
    | some t =>
      obtain ⟨n, rfl⟩ := hd.exists_singleton hs
      obtain ⟨r, u, hr, hu, hmem⟩ := S.successors q _ c hq ⟨m, StateSet.mem_singleton.2 rfl, _, hs⟩
      have e : u = .singleton n := StateSet.ext fun p => by rw [hmem]; simp [hs]
      exact .inr ⟨r, n, hr, rfl, e ▸ hu⟩
  · -- final
    rw [Bool.eq_iff_iff, S.final q _ hq]
    simp
  · -- names
    refine P.name?_of_singleton (fun s hs => ?_) hnames ((P.composites q).symm.trans hq)
    have hreached := (P.mem_found_iff O).1 hs
    obtain ⟨m, rfl, -⟩ := hd.reached_iff.1 hreached
    exact ⟨m, hreached.declared hv m (StateSet.mem_singleton.2 rfl), rfl⟩

end Construction

namespace Automaton

variable {a : Automaton} {limit : Nat} {d : Determinized}

theorem subsetConstruction_eq_ok : a.subsetConstruction limit = .ok d ↔
    ∃ k, Construction.construct a limit = .ok k ∧ d = ⟨k.result, k.composites⟩ := by
  rw [subsetConstruction]
  cases Construction.construct a limit <;> simp [eq_comm]

/-- **A construction on a deterministic automaton would end with the part of it that words lead to**, given a
limit that is not below the number of the states of this part. -/
theorem isReachablePart_subsetConstruction (hv : a.validate = .ok ()) (hd : a.isDeterministic = true) :
    (∀ limit, a.determinize limit = .ok ⟨a, a.selfComposites⟩) ∧
      ∃ part : StateSet, (∀ q, q ∈ part ↔ ∃ w, a.Leads a.initial w q) ∧
        (∀ limit, (∃ d, a.subsetConstruction limit = .ok d) ↔ part.size ≤ limit) ∧
        ∀ limit d, a.subsetConstruction limit = .ok d → IsReachablePart a d := by
  have hv := validate_eq_ok_iff.1 hv
  have hdet := isDeterministic_iff.1 hd
  obtain ⟨part, hpart, hsize⟩ := hdet.exists_part hv
  refine ⟨determinize_of_deterministic hv hd, part, hpart, fun limit => ?_, fun limit d h => ?_⟩
  · rw [← hsize, ← Construction.exists_construct_iff]
    simp only [subsetConstruction_eq_ok]
    constructor
    · rintro ⟨d, k, hk, -⟩
      exact ⟨k, hk⟩
    · rintro ⟨k, hk⟩
      exact ⟨_, k, hk, rfl⟩
  · obtain ⟨k, hk, rfl⟩ := subsetConstruction_eq_ok.1 h
    obtain ⟨found, P, O⟩ := Construction.progress_construct hk
    exact P.isReachablePart hv hdet O

/-- A deterministic automaton whose second state is not reached, and whose initial state is the third. -/
def detached : Automaton where
  names := ["end", "lost", "start"]
  alphabet := .ofSymbols ['a', 'b']
  states := .below 3
  initial := 2
  finals := .ofList [0, 1]
  transitions := .ofList
    [(0, .ofList [(some 'b', .ofList [2])]), (1, .ofList [(some 'a', .ofList [0])]),
      (2, .ofList [(some 'a', .ofList [0]), (some 'b', .ofList [2])])]

/-- The part of `detached` that is reached has two states. The first state of the automaton becomes the second
of its copy, where it is final and keeps its name. -/
theorem isReachablePart_detached :
    detached.validate = .ok () ∧ detached.isDeterministic = true ∧
      ∃ d, detached.subsetConstruction 2 = .ok d ∧ d.composites.get? 1 = some (.singleton 0) ∧
        d.automaton.isFinal 1 = true ∧ d.automaton.name? 1 = some "end" := by
  have hv : detached.validate = .ok () := by decide
  have hd : detached.isDeterministic = true := by decide
  have h : ((detached.subsetConstruction 2).toOption.map fun d => d.composites.get? 1) =
      some (some (.singleton 0)) := by decide +kernel
  obtain ⟨d, hok, hone⟩ := Option.map_eq_some_iff.1 h
  have hok := toOption_eq_some.1 hok
  obtain ⟨-, -, -, -, hpart⟩ := isReachablePart_subsetConstruction hv hd
  have R := hpart 2 d hok
  have hnames : ∀ m ∈ detached.states, ∀ n ∈ detached.states, detached.display m = detached.display n →
      m = n := by
    have hall : ∀ m ∈ detached.states.toList, ∀ n ∈ detached.states.toList,
        detached.display m = detached.display n → m = n := by decide
    exact hall
  exact ⟨hv, hd, d, hok, hone, R.final 1 0 hone, R.names hnames 1 0 hone⟩

end Automaton

end FiniteAutomata
