import FiniteAutomata.Proofs.Subset.Merging
import FiniteAutomata.Subset.Construction

/-!
# What a subset construction keeps

The sets are listed in the order in which they are met: the composite state of a set is its position
in the list, those not yet taken off the worklist are the end of the list, and the transitions of the
result are those written so far. `Progress` states this of one construction on its way, and each
operation is shown to keep it. Main statement: a run ends with every set that was met processed
(`Construction.Progress.run`).
-/
namespace FiniteAutomata.Construction

/-- The sets `found` were met in this order, the first `taken` of them were taken off the worklist,
and `written q c s` tells that the transition of the composite state `q` on `c` to the set `s` was
added. -/
structure Progress (a : Automaton) (k : Construction) (found : List StateSet) (taken : Nat)
    (written : Nat → Char → StateSet → Prop) : Prop where
  nodup : found.Nodup
  first : found[0]? = some (.singleton a.initial)
  ids : ∀ s q, k.ids.get? s = some q ↔ found[q]? = some s
  composites : ∀ q, k.composites.get? q = found[q]?
  alphabet : k.result.alphabet = a.alphabet
  initial : k.result.initial = 0
  states : k.result.states = .below found.length
  length_names : k.result.names.length = found.length
  nodup_names : k.result.names.Nodup
  named : ∀ q s, found[q]? = some s →
    k.result.names[q]? = some (a.compositeName (k.result.names.take q) s)
  finals : ∀ q, q ∈ k.result.finals ↔
    q < taken ∧ ∃ s, found[q]? = some s ∧ ∃ m ∈ s, a.isFinal m = true
  edges : ∀ q label t, k.result.targets? q label = some t ↔
    ∃ c s r, label = some c ∧ written q c s ∧ found[r]? = some s ∧ t = .singleton r
  rows : ∀ q row, k.result.row? q = some row → ∃ label t, row.get? label = some t
  written : ∀ q c s, written q c s → q < found.length ∧ s ∈ found
  taken_le : taken ≤ found.length
  worklist : k.worklist = found.drop taken
  finished : k.finished = .below taken

/-- Every composite state but the first one is the destination of an earlier one. -/
def Originates (found : List StateSet) (written : Nat → Char → StateSet → Prop) : Prop :=
  ∀ r, 0 < r → r < found.length → ∃ q c s, q < r ∧ written q c s ∧ found[r]? = some s

/-- The transitions of the composite states that were taken off the worklist: to what the members of
their sets lead to together. -/
def Processed (a : Automaton) (found : List StateSet) (taken q : Nat) (c : Char) (s : StateSet) :
    Prop :=
  q < taken ∧ ∃ m, found[q]? = some m ∧ (a.merged m).get? c = some s

theorem compositeName_not_mem (a : Automaton) (taken : List String) (s : StateSet) :
    a.compositeName taken s ∉ taken := by
  unfold Automaton.compositeName
  simp only
  split
  · exact unusedName_not_mem taken _
  · assumption

section Keeps
variable {a : Automaton} {k k' : Construction} {found : List StateSet} {limit taken : Nat}
  {written written' : Nat → Char → StateSet → Prop}

theorem Progress.congr (P : Progress a k found taken written)
    (h : ∀ q c s, written q c s ↔ written' q c s) : Progress a k found taken written' := by
  have e : written = written' := by
    funext q c s
    exact propext (h q c s)
  exact e ▸ P

theorem Originates.mono (O : Originates found written)
    (h : ∀ q c s, written q c s → written' q c s) : Originates found written' := by
  intro r h₀ hr
  obtain ⟨q, c, s, hq, hw, hs⟩ := O r h₀ hr
  exact ⟨q, c, s, hq, h q c s hw, hs⟩

/-! ## Meeting a set -/

theorem Progress.get?_ids_eq_none (P : Progress a k found taken written) {s : StateSet} :
    k.ids.get? s = none ↔ s ∉ found := by
  rw [Option.eq_none_iff_forall_ne_some]
  constructor
  · intro h hm
    obtain ⟨q, hq⟩ := List.mem_iff_getElem?.1 hm
    exact h q ((P.ids s q).2 hq)
  · intro h q hq
    exact h (List.mem_of_getElem? ((P.ids s q).1 hq))

/-- Everything that a visit may do. -/
theorem Progress.visit_cases (P : Progress a k found taken written) {s : StateSet} {q : Nat}
    (h : k.visit a limit s = .ok (q, k')) :
    (k' = k ∧ found[q]? = some s) ∨
      (s ∉ found ∧ q = found.length ∧ k' = k.addComposite a s) := by
  unfold visit at h
  split at h
  · rename_i q' hq
    cases h
    exact Or.inl ⟨rfl, (P.ids s q).1 hq⟩
  · rename_i hn
    split at h
    · cases h
      refine Or.inr ⟨P.get?_ids_eq_none.1 hn, ?_, rfl⟩
      rw [Automaton.handle_of_not_mem (compositeName_not_mem a _ s), P.length_names]
    · cases h

theorem addComposite_eq (k : Construction) (s : StateSet) :
    k.addComposite a s =
      { result :=
          { k.result with
            names := k.result.names ++ [a.compositeName k.result.names s]
            states := k.result.states.insert k.result.names.length }
        ids := k.ids.insert s k.result.names.length
        composites := k.composites.insert k.result.names.length s
        worklist := k.worklist ++ [s]
        finished := k.finished } := by
  have hn := compositeName_not_mem a k.result.names s
  simp only [addComposite, Automaton.handle_of_not_mem hn, Automaton.addState_of_not_mem hn]

theorem getElem?_append_singleton {α : Type} {l : List α} {x y : α} {i : Nat} :
    (l ++ [x])[i]? = some y ↔ l[i]? = some y ∨ i = l.length ∧ x = y := by
  rcases Nat.lt_trichotomy i l.length with h | h | h
  · rw [List.getElem?_append_left h]
    have : i ≠ l.length := Nat.ne_of_lt h
    simp [this]
  · subst h
    simp
  · have h₁ : l.length + 1 ≤ i := h
    rw [List.getElem?_eq_none (by simpa using h₁), List.getElem?_eq_none (Nat.le_of_lt h)]
    have : i ≠ l.length := Nat.ne_of_gt h
    simp [this]

/-- A set that was not met yet becomes the last composite state. -/
theorem Progress.addComposite (P : Progress a k found taken written) {s : StateSet}
    (hs : s ∉ found) : Progress a (k.addComposite a s) (found ++ [s]) taken written := by
  have hne : ∀ {r : Nat} {t : StateSet}, found[r]? = some t → t ≠ s := by
    intro r t hr e
    exact hs (e ▸ List.mem_of_getElem? hr)
  rw [addComposite_eq]
  refine ⟨?_, ?_, ?_, ?_, P.alphabet, P.initial, ?_, ?_, ?_, ?_, ?_, ?_, P.rows, ?_, ?_, ?_, P.finished⟩
  · -- nodup
    refine List.nodup_append.2 ⟨P.nodup, by simp, ?_⟩
    intro t ht u hu e
    rw [List.mem_singleton] at hu
    exact hs (hu ▸ e ▸ ht)
  · -- first
    exact getElem?_append_singleton.2 (Or.inl P.first)
  · -- ids
    intro t q
    rw [getElem?_append_singleton]
    by_cases ht : t = s
    · subst ht
      rw [Table.get?_insert_self, Option.some.injEq, P.length_names]
      constructor
      · rintro rfl; exact Or.inr ⟨rfl, rfl⟩
      · rintro (hq | ⟨rfl, -⟩)
        · exact absurd rfl (hne hq)
        · rfl
    · rw [Table.get?_insert_of_ne _ ht, P.ids]
      simp [Ne.symm ht]
  · -- composites
    intro q
    simp only [P.length_names]
    by_cases hq : q = found.length
    · subst hq
      simp
    · rw [Table.get?_insert_of_ne _ hq, P.composites]
      rcases Nat.lt_or_gt_of_ne hq with h | h
      · rw [List.getElem?_append_left h]
      · have hle : (found ++ [s]).length ≤ q := by rw [List.length_append]; exact h
        rw [List.getElem?_eq_none (Nat.le_of_lt h), List.getElem?_eq_none hle]
  · -- states
    simp only [P.states, P.length_names, List.length_append, List.length_singleton]
    exact StateSet.insert_below _
  · -- length_names
    simp only [List.length_append, P.length_names, List.length_singleton]
  · -- nodup_names
    refine List.nodup_append.2 ⟨P.nodup_names, by simp, ?_⟩
    intro n hn m hm e
    rw [List.mem_singleton] at hm
    exact compositeName_not_mem a k.result.names s (hm ▸ e ▸ hn)
  · -- named
    intro q t hq
    simp only
    rcases getElem?_append_singleton.1 hq with hq | ⟨rfl, rfl⟩
    · have hlt : q < k.result.names.length := by
        rw [P.length_names]
        exact (List.getElem?_eq_some_iff.1 hq).1
      rw [List.getElem?_append_left hlt, List.take_append_of_le_length (Nat.le_of_lt hlt)]
      exact P.named q t hq
    · rw [← P.length_names, List.take_left]
      simp
  · -- finals
    intro q
    rw [P.finals]
    refine and_congr_right fun hq => exists_congr fun t => and_congr_left fun _ => ?_
    rw [List.getElem?_append_left (Nat.lt_of_lt_of_le hq P.taken_le)]
  · -- edges
    intro q label t
    refine (P.edges q label t).trans ?_
    refine exists_congr fun c => exists_congr fun u => exists_congr fun r => ?_
    refine and_congr_right fun _ => and_congr_right fun hw => and_congr_left fun _ => ?_
    rw [getElem?_append_singleton]
    have hu : s ≠ u := fun e => hs (e ▸ (P.written q c u hw).2)
    simp [hu]
  · -- written
    intro q c u hw
    obtain ⟨h₁, h₂⟩ := P.written q c u hw
    rw [List.length_append]
    exact ⟨Nat.lt_add_right _ h₁, List.mem_append_left _ h₂⟩
  · -- taken_le
    rw [List.length_append]
    exact Nat.le_add_right_of_le P.taken_le
  · -- worklist
    simp only [P.worklist]
    rw [List.drop_append_of_le_length P.taken_le]

theorem getElem?_of_prefix {α : Type} {l l' : List α} (h : l <+: l') {i : Nat} {x : α}
    (hx : l[i]? = some x) : l'[i]? = some x := by
  obtain ⟨t, rfl⟩ := h
  rw [List.getElem?_append_left (List.getElem?_eq_some_iff.1 hx).1, hx]

/-! ## Adding a transition -/

/-- A transition is written once: the composite state has none on the symbol before. -/
theorem Progress.addTransition (P : Progress a k found taken written) {q r : Nat} {c : Char}
    {s : StateSet} (hq : q < found.length) (hr : found[r]? = some s) (hn : ∀ u, ¬ written q c u) :
    Progress a (k.addTransition q c r) found taken
      fun p d u => written p d u ∨ (p = q ∧ d = c ∧ u = s) := by
  have hnone : k.result.targets? q (some c) = none := by
    rw [Option.eq_none_iff_forall_ne_some]
    intro t ht
    obtain ⟨d, u, -, hd, hw, -⟩ := (P.edges q (some c) t).1 ht
    cases hd
    exact hn u hw
  refine ⟨P.nodup, P.first, P.ids, P.composites, P.alphabet, P.initial, P.states, P.length_names,
    P.nodup_names, P.named, P.finals, ?_, ?_, ?_, P.taken_le, P.worklist, P.finished⟩
  · -- edges
    intro p label t
    by_cases hp : p = q ∧ label = some c
    · obtain ⟨rfl, rfl⟩ := hp
      have ht : (k.addTransition p c r).result.targets? p (some c) = some (.singleton r) := by
        rw [Construction.addTransition]
        simp only
        rw [Automaton.targets?_addTransition_self, hnone]
        rfl
      rw [ht, Option.some.injEq]
      constructor
      · rintro rfl
        exact ⟨c, s, r, rfl, Or.inr ⟨rfl, rfl, rfl⟩, hr, rfl⟩
      · rintro ⟨d, u, r', hd, hw | ⟨-, -, rfl⟩, hr', rfl⟩
        · cases hd; exact absurd hw (hn u)
        · have hlt := (List.getElem?_eq_some_iff.1 hr).1
          rw [(List.getElem?_inj hlt P.nodup).1 (hr.trans hr'.symm)]
    · have ht : (k.addTransition q c r).result.targets? p label = k.result.targets? p label :=
        Automaton.targets?_addTransition_of_ne _ hp r
      rw [ht, P.edges]
      refine exists_congr fun d => exists_congr fun u => exists_congr fun r' => ?_
      refine and_congr_right fun hd => and_congr_left fun _ => ?_
      have : ¬ (p = q ∧ d = c ∧ u = s) := by
        rintro ⟨rfl, rfl, -⟩
        exact hp ⟨rfl, hd⟩
      simp [this]
  · -- rows
    intro p row hrow
    by_cases hp : p = q
    · subst hp
      have h := Automaton.row?_addTransition_self k.result p (some c) r
      rw [Construction.addTransition] at hrow
      simp only at hrow
      rw [h, Option.some.injEq] at hrow
      subst hrow
      exact ⟨some c, _, Table.get?_upsert_self _ _ _ _⟩
    · have h := Automaton.row?_addTransition_of_ne k.result hp (some c) r
      exact P.rows p row (h ▸ hrow)
  · -- written
    rintro p d u (hw | ⟨rfl, -, rfl⟩)
    · exact P.written p d u hw
    · exact ⟨hq, List.mem_of_getElem? hr⟩

/-! ## Processing a set -/

theorem drop_eq_cons {α : Type} {l rest : List α} {x : α} {n : Nat} (h : l.drop n = x :: rest) :
    l[n]? = some x ∧ l.drop (n + 1) = rest := by
  constructor
  · have h₀ : (l.drop n)[0]? = l[n + 0]? := List.getElem?_drop
    rw [h] at h₀
    simpa using h₀.symm
  · rw [← List.drop_drop, h, List.drop_one, List.tail_cons]

/-- Taking the next set off the worklist marks its composite state, which is the next one. -/
theorem Progress.finish (P : Progress a k found taken written) {s : StateSet}
    {rest : List StateSet} (hw : k.worklist = s :: rest) :
    Progress a (({ k with worklist := rest } : Construction).finish a taken s) found (taken + 1)
      written := by
  obtain ⟨hs, hrest⟩ := drop_eq_cons (P.worklist.symm.trans hw)
  have hlt := (List.getElem?_eq_some_iff.1 hs).1
  have hany : s.toList.any a.isFinal = true ↔ ∃ m ∈ s, a.isFinal m = true := List.any_eq_true
  -- only the final states of the result may change
  have hresult : ∃ finals, (({ k with worklist := rest } : Construction).finish a taken s).result =
      { k.result with finals := finals } ∧ ∀ q, q ∈ finals ↔
        q ∈ k.result.finals ∨ q = taken ∧ ∃ m ∈ s, a.isFinal m = true := by
    unfold Construction.finish
    by_cases hf : ∃ m ∈ s, a.isFinal m = true
    · refine ⟨k.result.finals.insert taken, by simp only [if_pos (hany.2 hf)]; rfl, fun q => ?_⟩
      simp [hf, or_comm]
    · refine ⟨k.result.finals, by simp only [if_neg (mt hany.1 hf)], fun q => ?_⟩
      simp [hf]
  obtain ⟨finals, hr, hfinals⟩ := hresult
  refine ⟨P.nodup, P.first, P.ids, P.composites, ?_, ?_, ?_, ?_, ?_, ?_, ?_, ?_, ?_, P.written, hlt,
    hrest.symm, ?_⟩
  · rw [hr]; exact P.alphabet
  · rw [hr]; exact P.initial
  · rw [hr]; exact P.states
  · rw [hr]; exact P.length_names
  · rw [hr]; exact P.nodup_names
  · rw [hr]; exact P.named
  · -- finals
    intro q
    rw [hr]
    simp only
    rw [hfinals, P.finals]
    constructor
    · rintro (⟨hq, h⟩ | ⟨rfl, h⟩)
      · exact ⟨Nat.lt_add_right 1 hq, h⟩
      · exact ⟨Nat.lt_succ_self q, s, hs, h⟩
    · rintro ⟨hq, t, ht, h⟩
      rcases Nat.lt_or_eq_of_le (Nat.le_of_lt_succ hq) with hq | rfl
      · exact Or.inl ⟨hq, t, ht, h⟩
      · obtain rfl := Option.some.inj (hs.symm.trans ht)
        exact Or.inr ⟨rfl, h⟩
  · rw [hr]; exact P.edges
  · rw [hr]; exact P.rows
  · -- finished
    simp only [Construction.finish, P.finished]
    exact StateSet.insert_below taken

/-- Adding the transitions of one composite state, none of which was there before. -/
theorem Progress.connect {q : Nat} {es : List (Char × StateSet)}
    (P : Progress a k found taken written) (O : Originates found written) (hq : q < found.length)
    (hkeys : es.Pairwise fun e f => e.1 ≠ f.1) (hnew : ∀ e ∈ es, ∀ u, ¬ written q e.1 u)
    (h : k.connect a limit q es = .ok k') :
    ∃ found', found <+: found' ∧
      Progress a k' found' taken (fun p d u => written p d u ∨ p = q ∧ (d, u) ∈ es) ∧
      Originates found' fun p d u => written p d u ∨ p = q ∧ (d, u) ∈ es := by
  induction es generalizing k found written with
  | nil =>
    cases h
    exact ⟨found, List.prefix_refl _, P.congr fun p d u => by simp, O.mono fun p d u => Or.inl⟩
  | cons e es ih =>
    obtain ⟨c, s⟩ := e
    unfold Construction.connect at h
    split at h
    · cases h
    rename_i r k₁ hv
    obtain ⟨hce, hkeys⟩ := List.pairwise_cons.1 hkeys
    -- the set that is visited has a place in the list, which grows when the set is new
    have hvisit : ∃ found₁, found <+: found₁ ∧ found₁[r]? = some s ∧
        Progress a k₁ found₁ taken written ∧
        ∀ i, found.length ≤ i → i < found₁.length → found₁[i]? = some s := by
      rcases P.visit_cases hv with ⟨rfl, hr⟩ | ⟨hs, rfl, rfl⟩
      · exact ⟨found, List.prefix_refl _, hr, P, fun i h₁ h₂ => absurd h₂ (Nat.not_lt.2 h₁)⟩
      · refine ⟨found ++ [s], List.prefix_append _ _, by simp, P.addComposite hs, ?_⟩
        intro i h₁ h₂
        have : i = found.length := by simp at h₂; omega
        subst this
        simp
    obtain ⟨found₁, hpre, hr, P₁, hlast⟩ := hvisit
    have hq₁ : q < found₁.length := Nat.lt_of_lt_of_le hq hpre.length_le
    have P₂ := P₁.addTransition hq₁ hr (hnew (c, s) (by simp))
    have O₂ : Originates found₁ fun p d u => written p d u ∨ (p = q ∧ d = c ∧ u = s) := by
      intro i h₀ hi
      rcases Nat.lt_or_ge i found.length with hlt | hge
      · obtain ⟨p, d, u, hp, hw, hu⟩ := O i h₀ hlt
        exact ⟨p, d, u, hp, Or.inl hw, getElem?_of_prefix hpre hu⟩
      · exact ⟨q, c, s, Nat.lt_of_lt_of_le hq hge, Or.inr ⟨rfl, rfl, rfl⟩, hlast i hge hi⟩
    obtain ⟨found', hpre', P', O'⟩ := ih P₂ O₂ hq₁ hkeys (by
      rintro f hf u (hw | ⟨-, hd, -⟩)
      · exact hnew f (List.mem_cons_of_mem _ hf) u hw
      · exact hce f hf hd.symm) h
    have e : ∀ p d u, ((written p d u ∨ (p = q ∧ d = c ∧ u = s)) ∨ p = q ∧ (d, u) ∈ es) ↔
        (written p d u ∨ p = q ∧ (d, u) ∈ (c, s) :: es) := by
      intro p d u
      rw [List.mem_cons, Prod.mk.injEq, or_assoc, and_or_left]
    exact ⟨found', hpre.trans hpre', P'.congr e, O'.mono fun p d u => (e p d u).1⟩

/-- Processing the next set: its transitions are the merged ones of its members. -/
theorem Progress.process {s : StateSet} {rest : List StateSet}
    (P : Progress a k found taken (Processed a found taken))
    (O : Originates found (Processed a found taken)) (hw : k.worklist = s :: rest)
    (h : ({ k with worklist := rest } : Construction).process a limit s = .ok k') :
    ∃ found', found <+: found' ∧ Progress a k' found' (taken + 1) (Processed a found' (taken + 1)) ∧
      Originates found' (Processed a found' (taken + 1)) := by
  have hs := (drop_eq_cons (P.worklist.symm.trans hw)).1
  have hlt := (List.getElem?_eq_some_iff.1 hs).1
  have hid : k.ids.get? s = some taken := (P.ids s taken).2 hs
  have hfin : k.finished.contains taken = false := by
    rw [← Bool.not_eq_true, StateSet.contains_iff, P.finished, StateSet.mem_below]
    exact Nat.lt_irrefl taken
  unfold Construction.process at h
  simp only [hid, hfin, Bool.false_eq_true, if_false] at h
  have hkeys : (a.merged s).entries.Pairwise fun e f => e.1 ≠ f.1 := by
    refine (a.merged s).ascending.imp fun {e f} hlt he => ?_
    rw [he, Std.ReflOrd.compare_self] at hlt
    cases hlt
  obtain ⟨found', hpre, P', O'⟩ := (P.finish hw).connect O hlt hkeys
    (fun e _ u hw => absurd hw.1 (Nat.lt_irrefl taken)) h
  have e : ∀ q c u, (Processed a found taken q c u ∨ q = taken ∧ (c, u) ∈ (a.merged s).entries) ↔
      Processed a found' (taken + 1) q c u := by
    intro q c u
    rw [← Table.get?_eq_some]
    constructor
    · rintro (⟨hq, m, hm, hu⟩ | ⟨rfl, hu⟩)
      · exact ⟨Nat.lt_add_right 1 hq, m, getElem?_of_prefix hpre hm, hu⟩
      · exact ⟨Nat.lt_succ_self q, s, getElem?_of_prefix hpre hs, hu⟩
    · rintro ⟨hq, m, hm, hu⟩
      have hq' : q < found.length := Nat.lt_of_lt_of_le hq hlt
      obtain ⟨t, rfl⟩ := hpre
      rw [List.getElem?_append_left hq'] at hm
      rcases Nat.lt_or_eq_of_le (Nat.le_of_lt_succ hq) with hq | rfl
      · exact Or.inl ⟨hq, m, hm, hu⟩
      · obtain rfl := Option.some.inj (hs.symm.trans hm)
        exact Or.inr ⟨rfl, hu⟩
  exact ⟨found', hpre, P'.congr e, O'.mono fun q c u => (e q c u).1⟩

/-! ## Whole runs -/

/-- **A run processes every set that was met.** -/
theorem Progress.run (P : Progress a k found taken (Processed a found taken))
    (O : Originates found (Processed a found taken)) (h : k.run a limit = .ok k') :
    ∃ found', found <+: found' ∧
      Progress a k' found' found'.length (Processed a found' found'.length) ∧
      Originates found' (Processed a found' found'.length) := by
  fun_induction Construction.run a limit k generalizing found taken with
  | case1 k hw =>
    cases h
    have hlen : taken = found.length := by
      have := P.taken_le
      have hd := List.drop_eq_nil_iff.1 (P.worklist.symm.trans hw)
      omega
    subst hlen
    exact ⟨found, List.prefix_refl _, P, O⟩
  | case2 k s rest hw k₁ hp => cases h
  | case3 k s rest hw k₁ hp ih =>
    obtain ⟨found₁, hpre, P₁, O₁⟩ := P.process O hw hp
    obtain ⟨found', hpre', P', O'⟩ := ih P₁ O₁ h
    exact ⟨found', hpre.trans hpre', P', O'⟩

end Keeps

theorem start_eq (a : Automaton) :
    start a =
      { result := ⟨[a.joinedName (.singleton a.initial)], a.alphabet, .below 1, 0, ∅, ∅⟩
        ids := (∅ : Table StateSet Nat).insert (.singleton a.initial) 0
        composites := (∅ : Table Nat StateSet).insert 0 (.singleton a.initial)
        worklist := [.singleton a.initial]
        finished := ∅ } := by
  simp only [start, Automaton.new_eq]

theorem progress_start (a : Automaton) :
    Progress a (start a) [.singleton a.initial] 0 (Processed a [.singleton a.initial] 0) := by
  have hget : ∀ (q : Nat) (s : StateSet), [StateSet.singleton a.initial][q]? = some s ↔
      q = 0 ∧ s = .singleton a.initial := by
    intro q s
    cases q with
    | zero => simp [eq_comm]
    | succ q => simp
  have htargets : ∀ q label, (⟨[a.joinedName (.singleton a.initial)], a.alphabet, .below 1, 0, ∅,
      ∅⟩ : Automaton).targets? q label = none := fun q label => rfl
  rw [start_eq]
  refine ⟨by simp, rfl, ?_, ?_, rfl, rfl, rfl, rfl, by simp, ?_, ?_, ?_, ?_, ?_, Nat.zero_le _, rfl,
    rfl⟩
  · -- ids
    intro s q
    rw [hget]
    by_cases hs : s = .singleton a.initial
    · subst hs
      simp [eq_comm]
    · rw [Table.get?_insert_of_ne _ hs]
      simp [hs]
  · -- composites
    intro q
    cases q with
    | zero => simp
    | succ q => rw [Table.get?_insert_of_ne _ (Nat.succ_ne_zero q)]; rfl
  · -- named
    intro q s hq
    obtain ⟨rfl, rfl⟩ := (hget q s).1 hq
    simp [Automaton.compositeName]
  · -- finals
    intro q
    simp
  · -- edges
    intro q label t
    rw [htargets]
    constructor
    · intro h
      cases h
    · rintro ⟨c, s, r, -, hw, -⟩
      exact absurd hw.1 (Nat.not_lt_zero q)
  · -- rows
    intro q row h
    cases h
  · -- written
    intro q c s hw
    exact absurd hw.1 (Nat.not_lt_zero q)

/-- The set of the initial state is the first one, the only one that is not a destination. -/
theorem originates_start (a : Automaton) :
    Originates [.singleton a.initial] (Processed a [.singleton a.initial] 0) := by
  intro r h₀ hr
  rw [List.length_singleton] at hr
  omega

/-- A construction that succeeds has met some sets, in an order, and processed all of them. -/
theorem progress_construct {a : Automaton} {limit : Nat} {k : Construction}
    (h : construct a limit = .ok k) :
    ∃ found, Progress a k found found.length (Processed a found found.length) ∧
      Originates found (Processed a found found.length) := by
  unfold construct at h
  split at h
  · cases h
  · obtain ⟨found, -, P, O⟩ := (progress_start a).run (originates_start a) h
    exact ⟨found, P, O⟩

end FiniteAutomata.Construction
