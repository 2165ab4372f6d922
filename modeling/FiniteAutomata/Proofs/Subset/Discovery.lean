import FiniteAutomata.Proofs.Automaton.Edges
import FiniteAutomata.Proofs.Subset.ReachableSubsets

/-!
# The order in which composite states are discovered

A set gets the next handle when a transition leads to it for the first time. Sets are processed in the
order of their handles, and the symbols of each in ascending order. So transitions are written in the order
of their sources and symbols, and none that leads to a composite state or to a later one is written before
the transition that discovered it. Main statement: this holds of all composite states but the first one,
when a construction ends (`numbered_construct`).
-/
namespace FiniteAutomata

namespace Automaton

/-- The transition from `q` on `c` leads to the later state `r`, and no transition of a lesser source, or of
the same source on a lesser symbol, leads to `r` or beyond. -/
structure Discovers (b : Automaton) (q : Nat) (c : Char) (r : Nat) : Prop where
  lt : q < r
  edge : b.HasEdge q (some c) r
  first : ∀ p d t, b.HasEdge p (some d) t → r ≤ t → q < p ∨ q = p ∧ c ≤ d

variable {b b' : Automaton} {p q r t : Nat} {c d : Char}

theorem hasEdge_congr {label : Label} (h : b'.transitions = b.transitions) :
    b'.HasEdge q label r ↔ b.HasEdge q label r := by
  unfold HasEdge targets? row?
  rw [h]

theorem Discovers.congr (hd : b.Discovers q c r) (h : b'.transitions = b.transitions) :
    b'.Discovers q c r :=
  ⟨hd.lt, (hasEdge_congr h).2 hd.edge, fun p d t he => hd.first p d t ((hasEdge_congr h).1 he)⟩

/-- A state is discovered once. -/
theorem Discovers.unique (h : b.Discovers p c r) (h' : b.Discovers q d r) : p = q ∧ c = d := by
  have h₁ := h.first q d r h'.edge (Nat.le_refl r)
  have h₂ := h'.first p c r h.edge (Nat.le_refl r)
  rcases h₁ with h₁ | ⟨rfl, hcd⟩
  · omega
  · rcases h₂ with h₂ | ⟨-, hdc⟩
    · omega
    · exact ⟨rfl, Char.le_antisymm hcd hdc⟩

/-- Transitions that are written later discover nothing anew. -/
theorem Discovers.addTransition (h : b.Discovers p d r) (hlater : p < q ∨ p = q ∧ d < c) :
    (b.addTransition q (some c) t).Discovers p d r := by
  refine ⟨h.lt, hasEdge_addTransition.2 (.inl h.edge), fun p' d' t' he hr => ?_⟩
  rcases hasEdge_addTransition.1 he with he | ⟨rfl, hd, -⟩
  · exact h.first p' d' t' he hr
  · obtain rfl := Option.some.inj hd
    exact hlater.imp_right fun hlt => ⟨hlt.1, Char.not_lt.1 (Char.lt_asymm hlt.2)⟩

end Automaton

namespace Construction

/-- Composite states have handles below their number, and each of them but the first one was discovered. -/
structure Numbered (k : Construction) : Prop where
  ids : ∀ s q, k.ids.get? s = some q → q < k.result.names.length
  targets : ∀ q label r, k.result.HasEdge q label r → r < k.result.names.length
  discovered : ∀ r, 0 < r → r < k.result.names.length → ∃ q c, k.result.Discovers q c r

variable {a : Automaton} {limit q r : Nat} {k k' : Construction} {s : StateSet} {c : Char}

theorem numbered_start (a : Automaton) : (start a).Numbered := by
  rw [start_eq]
  refine ⟨fun s q hq => ?_, fun q label r he => ?_, fun r hr hlt => ?_⟩
  · by_cases hs : s = .singleton a.initial
    · subst hs
      rw [Table.get?_insert_self] at hq
      rw [← Option.some.inj hq]
      exact Nat.one_pos
    · rw [Table.get?_insert_of_ne _ hs] at hq
      cases hq
  · obtain ⟨targets, ht, -⟩ := he
    cases ht
  · have : r < 1 := hlt
    omega

/-! ## Visiting a set -/

/-- A visit gives a handle that is in use, or the next one. -/
theorem Numbered.visit_cases (h : k.Numbered) (hv : k.visit a limit s = .ok (r, k')) :
    (k' = k ∧ r < k.result.names.length) ∨ (k' = k.addComposite a s ∧ r = k.result.names.length) := by
  unfold Construction.visit at hv
  split at hv
  · rename_i r' hr
    cases hv
    exact .inl ⟨rfl, h.ids s r hr⟩
  · split at hv
    · cases hv
      exact .inr ⟨rfl, Automaton.handle_of_not_mem (compositeName_not_mem a _ s)⟩
    · cases hv

theorem transitions_addComposite : (k.addComposite a s).result.transitions = k.result.transitions := by
  rw [addComposite_eq]

theorem length_names_addComposite :
    (k.addComposite a s).result.names.length = k.result.names.length + 1 := by
  rw [addComposite_eq]
  exact List.length_append

/-- The transition to a known set comes after all that discovered a state. -/
theorem Numbered.addTransition (h : k.Numbered) (hr : r < k.result.names.length)
    (hlast : ∀ p d t, k.result.HasEdge p (some d) t → p < q ∨ p = q ∧ d < c) :
    (k.addTransition q c r).Numbered := by
  refine ⟨h.ids, fun p label t he => ?_, fun t ht hlt => ?_⟩
  · rcases Automaton.hasEdge_addTransition.1 he with he | ⟨-, -, rfl⟩
    · exact h.targets p label t he
    · exact hr
  · obtain ⟨p, d, hd⟩ := h.discovered t ht hlt
    exact ⟨p, d, hd.addTransition (hlast p d t hd.edge)⟩

/-- The transition to a new set discovers its composite state: all the others lead to earlier ones. -/
theorem Numbered.addTransition_addComposite (h : k.Numbered) (hq : q < k.result.names.length)
    (hlast : ∀ p d t, k.result.HasEdge p (some d) t → p < q ∨ p = q ∧ d < c) :
    ((k.addComposite a s).addTransition q c k.result.names.length).Numbered := by
  have hlength := length_names_addComposite (a := a) (k := k) (s := s)
  have hedge : ∀ p label t,
      ((k.addComposite a s).addTransition q c k.result.names.length).result.HasEdge p label t ↔
        k.result.HasEdge p label t ∨ p = q ∧ label = some c ∧ t = k.result.names.length := by
    intro p label t
    exact Automaton.hasEdge_addTransition.trans
      (or_congr_left (Automaton.hasEdge_congr transitions_addComposite))
  have hnames : ((k.addComposite a s).addTransition q c k.result.names.length).result.names.length =
      k.result.names.length + 1 := hlength
  refine ⟨fun s' q' hq' => ?_, fun p label t he => ?_, fun t ht hlt => ?_⟩
  · rw [hnames]
    have hget : (k.ids.insert s k.result.names.length).get? s' = some q' := by
      rw [addComposite_eq] at hq'
      exact hq'
    by_cases hs : s' = s
    · rw [hs, Table.get?_insert_self, Option.some.injEq] at hget
      omega
    · rw [Table.get?_insert_of_ne _ hs] at hget
      exact Nat.lt_succ_of_lt (h.ids s' q' hget)
  · rw [hnames]
    rcases (hedge p label t).1 he with he | ⟨-, -, rfl⟩
    · exact Nat.lt_succ_of_lt (h.targets p label t he)
    · exact Nat.lt_succ_self _
  · rw [hnames] at hlt
    rcases Nat.lt_or_eq_of_le (Nat.le_of_lt_succ hlt) with hlt | rfl
    · obtain ⟨p, d, hd⟩ := h.discovered t ht hlt
      exact ⟨p, d, (hd.congr transitions_addComposite).addTransition (hlast p d t hd.edge)⟩
    · refine ⟨q, c, hq, (hedge _ _ _).2 (.inr ⟨rfl, rfl, rfl⟩), fun p d t he ht => ?_⟩
      rcases (hedge p (some d) t).1 he with he | ⟨rfl, hd, -⟩
      · have := h.targets p (some d) t he
        omega
      · obtain rfl := Option.some.inj hd
        exact .inr ⟨rfl, Char.le_refl d⟩

/-! ## Processing a set -/

/-- **The transitions of one composite state keep the numbering**, when they are added after all others and
in the order of their symbols. -/
theorem Numbered.connect {es : List (Char × StateSet)} (h : k.Numbered) (hq : q < k.result.names.length)
    (hkeys : es.Pairwise fun e f => e.1 < f.1)
    (hlast : ∀ p d t, k.result.HasEdge p (some d) t → p < q ∨ p = q ∧ ∀ e ∈ es, d < e.1)
    (h' : k.connect a limit q es = .ok k') : k'.Numbered := by
  induction es generalizing k with
  | nil =>
    cases h'
    exact h
  | cons e es ih =>
    unfold Construction.connect at h'
    split at h'
    · cases h'
    rename_i r k₁ hv
    obtain ⟨hce, hkeys⟩ := List.pairwise_cons.1 hkeys
    have hlast₁ : ∀ p d t, k.result.HasEdge p (some d) t → p < q ∨ p = q ∧ d < e.1 := fun p d t he =>
      (hlast p d t he).imp_right fun hd => ⟨hd.1, hd.2 e List.mem_cons_self⟩
    -- the transition that is added now comes before those that are left
    have hlast₂ : ∀ p d t, k.result.HasEdge p (some d) t ∨ p = q ∧ some d = some e.1 ∧ t = r →
        p < q ∨ p = q ∧ ∀ f ∈ es, d < f.1 := by
      rintro p d t (he | ⟨hp, hd, -⟩)
      · exact (hlast p d t he).imp_right fun hd => ⟨hd.1, fun f hf => hd.2 f (List.mem_cons_of_mem e hf)⟩
      · rw [Option.some.inj hd]
        exact .inr ⟨hp, hce⟩
    rcases h.visit_cases hv with ⟨rfl, hr⟩ | ⟨rfl, rfl⟩
    · exact ih (h.addTransition hr hlast₁) hq hkeys
        (fun p d t he => hlast₂ p d t (Automaton.hasEdge_addTransition.1 he)) h'
    · refine ih (h.addTransition_addComposite hq hlast₁) ?_ hkeys (fun p d t he => hlast₂ p d t ?_) h'
      · exact Nat.lt_of_lt_of_eq (Nat.lt_succ_of_lt hq) length_names_addComposite.symm
      · exact (Automaton.hasEdge_addTransition.1 he).imp_left
          (Automaton.hasEdge_congr transitions_addComposite).1

/-- Marking a composite state changes neither handles nor transitions. -/
theorem finish_keeps (a : Automaton) (k : Construction) (q : Nat) (s : StateSet) :
    (k.finish a q s).ids = k.ids ∧ (k.finish a q s).result.names = k.result.names ∧
      (k.finish a q s).result.transitions = k.result.transitions := by
  unfold Construction.finish
  split <;> exact ⟨rfl, rfl, rfl⟩

theorem Numbered.finish (h : k.Numbered) (a : Automaton) (q : Nat) (s : StateSet) :
    (k.finish a q s).Numbered := by
  obtain ⟨hids, hnames, htransitions⟩ := finish_keeps a k q s
  refine ⟨fun s' q' hq' => ?_, fun p label t he => ?_, fun t ht hlt => ?_⟩
  · rw [hnames]
    exact h.ids s' q' (hids ▸ hq')
  · rw [hnames]
    exact h.targets p label t ((Automaton.hasEdge_congr htransitions).1 he)
  · obtain ⟨p, d, hd⟩ := h.discovered t ht (hnames ▸ hlt)
    exact ⟨p, d, hd.congr htransitions⟩

section Runs
variable {found : List StateSet} {taken : Nat}

/-- Processing the next set keeps the numbering: the sources so far are the sets before it. -/
theorem Numbered.process {rest : List StateSet} (h : k.Numbered)
    (P : Progress a k found taken (Processed a found taken)) (hw : k.worklist = s :: rest)
    (h' : ({ k with worklist := rest } : Construction).process a limit s = .ok k') : k'.Numbered := by
  have hs := (drop_eq_cons (P.worklist.symm.trans hw)).1
  have hid : k.ids.get? s = some taken := (P.ids s taken).2 hs
  have hrest : ({ k with worklist := rest } : Construction).Numbered := ⟨h.ids, h.targets, h.discovered⟩
  have hlast : ∀ p d t, k.result.HasEdge p (some d) t → p < taken := by
    rintro p d t ⟨targets, ht, -⟩
    obtain ⟨c, u, r, -, hwritten, -⟩ := (P.edges p (some d) targets).1 ht
    exact hwritten.1
  unfold Construction.process at h'
  simp only [hid] at h'
  split at h'
  · cases h'
    exact hrest
  · obtain ⟨-, hnames, htransitions⟩ := finish_keeps a { k with worklist := rest } taken s
    refine (hrest.finish a taken s).connect ?_ ?_ (fun p d t he => .inl ?_) h'
    · rw [hnames]
      exact h.ids s taken hid
    · exact (a.merged s).ascending.imp compareOfLessAndEq_eq_lt.1
    · exact hlast p d t ((Automaton.hasEdge_congr htransitions).1 he)

theorem Numbered.run (h : k.Numbered) (P : Progress a k found taken (Processed a found taken))
    (O : Originates found (Processed a found taken)) (h' : k.run a limit = .ok k') : k'.Numbered := by
  fun_induction Construction.run a limit k generalizing found taken with
  | case1 k hw =>
    cases h'
    exact h
  | case2 k s rest hw k₁ hp => cases h'
  | case3 k s rest hw k₁ hp ih =>
    obtain ⟨found₁, -, P₁, O₁⟩ := P.process O hw hp
    exact ih (h.process P hw hp) P₁ O₁ h'

end Runs

/-- **When a construction ends, each composite state but the first one was discovered.** -/
theorem numbered_construct (h : construct a limit = .ok k) : k.Numbered := by
  unfold construct at h
  split at h
  · cases h
  · exact (numbered_start a).run (progress_start a) (originates_start a) h

end Construction

end FiniteAutomata
