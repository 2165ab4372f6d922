import FiniteAutomata.Proofs.Subset.ReachableSubsets

/-!
# Limits

A construction that stays within a limit takes the same steps under every greater one, whatever the alphabet
of its automaton, which is only handed on to the result. So the limits that are enough all give the same
result (`determinize_eq`), and automata that differ in their alphabets only have results that do
(`determinize_withAlphabet`).
-/
namespace FiniteAutomata

/-- The automaton with another alphabet. -/
def Automaton.withAlphabet (a : Automaton) (al : Alphabet) : Automaton := { a with alphabet := al }

namespace Construction

/-- The construction with another alphabet of its result. -/
def withAlphabet (k : Construction) (al : Alphabet) : Construction :=
  { k with result := k.result.withAlphabet al }

variable {a : Automaton} {al : Alphabet} {k k' : Construction} {limit limit' : Nat}

theorem start_withAlphabet (a : Automaton) (al : Alphabet) :
    start (a.withAlphabet al) = (start a).withAlphabet al := by
  rw [start_eq, start_eq]
  rfl

theorem addComposite_withAlphabet (a : Automaton) (al : Alphabet) (k : Construction) (s : StateSet) :
    (k.withAlphabet al).addComposite (a.withAlphabet al) s = (k.addComposite a s).withAlphabet al := by
  have hintern : ∀ (b : Automaton) (name : String),
      (b.withAlphabet al).addState name = (b.addState name).withAlphabet al := by
    intro b name
    unfold Automaton.addState Automaton.intern
    by_cases h : (b.state? name).isSome
    · have h' : ((b.withAlphabet al).state? name).isSome := h
      rw [if_pos h, if_pos h']
      rfl
    · have h' : ¬ ((b.withAlphabet al).state? name).isSome := h
      rw [if_neg h, if_neg h']
      rfl
  unfold addComposite withAlphabet
  simp only [hintern]
  rfl

theorem visit_mono (al : Alphabet) (hle : limit ≤ limit') {s : StateSet} {q : Nat}
    (h : k.visit a limit s = .ok (q, k')) :
    (k.withAlphabet al).visit (a.withAlphabet al) limit' s = .ok (q, k'.withAlphabet al) := by
  unfold visit at h ⊢
  have hids : (k.withAlphabet al).ids = k.ids := rfl
  rw [hids]
  split at h
  · cases h
    rfl
  · split at h
    · rename_i hlt
      cases h
      rw [if_pos (Nat.lt_of_lt_of_le hlt hle), addComposite_withAlphabet]
      rfl
    · cases h

theorem connect_mono (al : Alphabet) (hle : limit ≤ limit') {source : Nat} {es : List (Char × StateSet)}
    (h : k.connect a limit source es = .ok k') :
    (k.withAlphabet al).connect (a.withAlphabet al) limit' source es = .ok (k'.withAlphabet al) := by
  induction es generalizing k with
  | nil =>
    cases h
    rfl
  | cons e es ih =>
    unfold connect at h ⊢
    split at h
    · cases h
    · rename_i target k₁ hv
      rw [visit_mono al hle hv]
      exact ih h

theorem process_mono (al : Alphabet) (hle : limit ≤ limit') {s : StateSet}
    (h : k.process a limit s = .ok k') :
    (k.withAlphabet al).process (a.withAlphabet al) limit' s = .ok (k'.withAlphabet al) := by
  have hfinish : ∀ q, (k.withAlphabet al).finish (a.withAlphabet al) q s =
      (k.finish a q s).withAlphabet al := by
    intro q
    unfold finish withAlphabet
    split
    · rename_i hf
      have hf : s.toList.any a.isFinal = true := hf
      rw [if_pos hf]
      rfl
    · rename_i hf
      have hf : ¬ s.toList.any a.isFinal = true := hf
      rw [if_neg hf]
  unfold process at h ⊢
  have hids : (k.withAlphabet al).ids = k.ids := rfl
  have hfinished : (k.withAlphabet al).finished = k.finished := rfl
  rw [hids, hfinished]
  split at h
  · cases h
    rfl
  · rename_i q _
    split at h
    · rename_i hq
      cases h
      rw [if_pos hq]
    · rename_i hq
      rw [if_neg hq, hfinish]
      exact connect_mono al hle h

theorem run_of_worklist_nil (h : k.worklist = []) : k.run a limit = .ok k := by
  unfold Construction.run
  split
  · rfl
  · rename_i h'
    rw [h] at h'
    cases h'

theorem run_of_worklist_cons {s : StateSet} {rest : List StateSet} (h : k.worklist = s :: rest)
    (hp : process a limit { k with worklist := rest } s = .ok k') : k.run a limit = k'.run a limit := by
  rw [Construction.run]
  split
  · rename_i h'
    rw [h] at h'
    cases h'
  · rename_i h'
    obtain ⟨rfl, rfl⟩ := List.cons.inj (h.symm.trans h')
    split
    · rename_i hp'
      rw [hp] at hp'
      cases hp'
    · rename_i hp'
      rw [Except.ok.inj (hp.symm.trans hp')]

theorem run_mono (al : Alphabet) (hle : limit ≤ limit') (h : k.run a limit = .ok k') :
    (k.withAlphabet al).run (a.withAlphabet al) limit' = .ok (k'.withAlphabet al) := by
  fun_induction Construction.run a limit k with
  | case1 k hw =>
    cases h
    exact run_of_worklist_nil hw
  | case2 k s rest hw k₁ hp => cases h
  | case3 k s rest hw k₁ hp ih =>
    have hp' := process_mono al hle hp
    have hw' : (k.withAlphabet al).worklist = s :: rest := hw
    rw [run_of_worklist_cons hw' hp']
    exact ih h

theorem construct_mono (al : Alphabet) (hle : limit ≤ limit') (h : construct a limit = .ok k) :
    construct (a.withAlphabet al) limit' = .ok (k.withAlphabet al) := by
  unfold construct at h ⊢
  split at h
  · cases h
  · rename_i hne
    rw [if_neg (by omega), start_withAlphabet]
    exact run_mono al hle h

theorem alphabet_construct (h : construct a limit = .ok k) : k.result.alphabet = a.alphabet := by
  obtain ⟨found, P, -⟩ := progress_construct h
  exact P.alphabet

theorem withAlphabet_eq_self (h : k.result.alphabet = al) : k.withAlphabet al = k := by
  subst h
  rfl

/-- The limits that are enough all give the same construction. -/
theorem construct_eq (h : construct a limit = .ok k) (h' : construct a limit' = .ok k') : k = k' := by
  have hmono : ∀ {limit limit' k k'}, limit ≤ limit' → construct a limit = .ok k →
      construct a limit' = .ok k' → k = k' := by
    intro limit limit' k k' hle h h'
    have hk := construct_mono a.alphabet hle h
    rw [withAlphabet_eq_self (alphabet_construct h)] at hk
    exact Except.ok.inj (hk.symm.trans h')
  rcases Nat.le_total limit limit' with hle | hle
  · exact hmono hle h h'
  · exact (hmono hle h' h).symm

end Construction

namespace Automaton

variable {a : Automaton} {al : Alphabet} {limit limit' : Nat} {d d' : Determinized}

/-- **The limits that are enough all give the same result.** -/
theorem determinize_eq (h : a.determinize limit = .ok d) (h' : a.determinize limit' = .ok d') : d = d' := by
  obtain ⟨hv, ⟨hdet, rfl⟩ | ⟨hn, k, hk, rfl⟩⟩ := determinize_cases h
  · obtain ⟨-, ⟨-, rfl⟩ | ⟨hn, -⟩⟩ := determinize_cases h'
    · rfl
    · rw [hdet] at hn
      cases hn
  · obtain ⟨-, ⟨hdet, -⟩ | ⟨-, k', hk', rfl⟩⟩ := determinize_cases h'
    · rw [hn] at hdet
      cases hdet
    · rw [Construction.construct_eq hk hk']

/-- **The alphabet is only handed on to the result.** -/
theorem determinize_withAlphabet (h : a.determinize limit = .ok d) (hv : (a.withAlphabet al).Valid) :
    (a.withAlphabet al).determinize limit =
      .ok ⟨d.automaton.withAlphabet al, d.composites⟩ := by
  obtain ⟨-, ⟨hdet, rfl⟩ | ⟨hn, k, hk, rfl⟩⟩ := determinize_cases h
  · have hdet' : (a.withAlphabet al).isDeterministic = true := hdet
    rw [determinize, problem?_eq_none_iff.2 hv]
    exact if_pos hdet'
  · have hn' : ¬ (a.withAlphabet al).isDeterministic = true := by
      have : (a.withAlphabet al).isDeterministic = false := hn
      rw [this]
      exact Bool.false_ne_true
    rw [determinize, problem?_eq_none_iff.2 hv]
    simp only
    rw [if_neg hn', subsetConstruction, Construction.construct_mono al (Nat.le_refl limit) hk]
    rfl

/-- The alphabet of the result is that of the automaton. -/
theorem alphabet_determinize (h : a.determinize limit = .ok d) : d.automaton.alphabet = a.alphabet := by
  obtain ⟨-, ⟨-, rfl⟩ | ⟨-, k, hk, rfl⟩⟩ := determinize_cases h
  · rfl
  · exact Construction.alphabet_construct hk

end Automaton

end FiniteAutomata
