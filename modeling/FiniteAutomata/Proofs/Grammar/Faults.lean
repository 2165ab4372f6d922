import FiniteAutomata.Proofs.Automaton.Epsilon
import FiniteAutomata.Proofs.Grammar.Language

/-!
# Faults of a grammar

A production that says no rule is a fault. The conversion reports the first one, the non-terminals taken
in the order of their names, and the check of the automaton then reports the first non-terminal that has a
unit production, in the order in which the non-terminals were added. Main theorem: `toAutomaton_outcome`
tells what both answer for every grammar that is built.
-/
namespace FiniteAutomata

/-- The member is the first one of the list with the property. -/
def IsFirst {α : Type} (P : α → Prop) (xs : List α) (x : α) : Prop :=
  ∃ i : Nat, xs[i]? = some x ∧ P x ∧ ∀ j < i, ∀ y, xs[j]? = some y → ¬ P y

theorem IsFirst.unique {α : Type} {P : α → Prop} {xs : List α} {x y : α} (h : IsFirst P xs x)
    (h' : IsFirst P xs y) : x = y := by
  obtain ⟨i, hi, hx, hbefore⟩ := h
  obtain ⟨j, hj, hy, hbefore'⟩ := h'
  rcases Nat.lt_trichotomy i j with hlt | rfl | hlt
  · exact absurd hx (hbefore' i hlt x hi)
  · exact Option.some.inj (hi.symm.trans hj)
  · exact absurd hy (hbefore j hlt y hj)

theorem IsFirst.of_append {α : Type} {P : α → Prop} {xs ys : List α} {x : α} (hx : P x)
    (hbefore : ∀ y ∈ xs, ¬ P y) : IsFirst P (xs ++ x :: ys) x := by
  refine ⟨xs.length, by simp, hx, fun j hj y hy => ?_⟩
  rw [List.getElem?_append_left hj] at hy
  exact hbefore y (List.mem_of_getElem? hy)

namespace Grammar

/-- The production is the name of a non-terminal, or nothing, or a terminal with nothing or the name of a
non-terminal after it. -/
def RightLinear (g : Grammar) (production : String) : Prop :=
  production ∈ g.nonTerminals ∨ production = "" ∨
    ∃ c s, production = String.singleton c ++ s ∧ g.terminals.contains c = true ∧
      (s = "" ∨ s ∈ g.nonTerminals)

/-- The production is the first one that is not right-linear, the non-terminals taken in the order of their
names and the productions of each in the order in which they were added. -/
structure FirstFault (g : Grammar) (name production : String) : Prop where
  here : IsFirst (fun p => ¬ g.RightLinear p) (g.productionsOf name) production
  before : ∀ n < name, ∀ p ∈ g.productionsOf n, g.RightLinear p

/-- The error is about the production: about what follows its terminal, or about the production as a whole
when it does not begin with a terminal. -/
inductive Reports (g : Grammar) (name : String) : String → GrammarError → Prop where
  | undefined {c : Char} {s : String} (hc : g.terminals.contains c = true) :
      Reports g name (String.singleton c ++ s) (.undefinedNonTerminal s)
  | notRightLinear {c : Char} {s : String} (hc : g.terminals.contains c = false) :
      Reports g name (String.singleton c ++ s) (.notRightLinear name (String.singleton c ++ s))

/-- The non-terminal has a production that is the name of a non-terminal. -/
def HasUnit (g : Grammar) (name : String) : Prop := ∃ p ∈ g.productionsOf name, p ∈ g.nonTerminals

variable {g : Grammar} {m n p : String} {e e' : GrammarError}

theorem Reports.unique (h : g.Reports m p e) (h' : g.Reports m p e') : e = e' := by
  cases h with
  | undefined hc =>
    generalize hp : String.singleton _ ++ _ = q at h'
    cases h' with
    | undefined hc' => rw [(String.singleton_append_inj.1 hp).2]
    | notRightLinear hc' =>
      rw [(String.singleton_append_inj.1 hp).1, hc'] at hc
      cases hc
  | notRightLinear hc =>
    generalize hp : String.singleton _ ++ _ = q at h'
    cases h' with
    | undefined hc' =>
      rw [(String.singleton_append_inj.1 hp).1, hc'] at hc
      cases hc
    | notRightLinear hc' => rfl

/-! ## Rules and faults -/

/-- The right-linear productions are those that say a rule. -/
theorem exists_rule_iff (hl : g.Listed) : (∃ r, g.rule m p = .ok r) ↔ g.RightLinear p := by
  constructor
  · rintro ⟨r, hr⟩
    have hrule := rule_eq_ok.1 hr
    cases r with
    | unit target => exact .inl ((hl.defined p).1 hrule.1)
    | stop => exact .inr (.inl hrule.2)
    | last c => exact .inr (.inr ⟨c, "", by rw [hrule.2.1, String.append_empty], hrule.2.2, .inl rfl⟩)
    | next c target =>
      obtain ⟨-, hp, -, hc, ht⟩ := hrule
      exact .inr (.inr ⟨c, target, hp, hc, .inr ((hl.defined target).1 ht)⟩)
  · intro h
    by_cases hd : g.isDefined p = true
    · exact ⟨_, rule_of_isDefined hd⟩
    · rcases h with h | rfl | ⟨c, s, rfl, hc, hs⟩
      · exact absurd ((hl.defined p).2 h) hd
      · exact ⟨_, rule_empty (Bool.not_eq_true _ ▸ hd)⟩
      · rw [rule_singleton_append (Bool.not_eq_true _ ▸ hd), if_pos hc]
        by_cases he : s = ""
        · exact ⟨_, if_pos he⟩
        · rw [if_neg he, if_pos ((hl.defined s).2 (hs.resolve_left he))]
          exact ⟨_, rfl⟩

theorem reports_of_rule (h : g.rule m p = .error e) : g.Reports m p e := by
  by_cases hd : g.isDefined p = true
  · rw [rule_of_isDefined hd] at h
    cases h
  · rw [Bool.not_eq_true] at hd
    rcases eq_empty_or_singleton_append p with rfl | ⟨c, s, rfl⟩
    · rw [rule_empty hd] at h
      cases h
    · rw [rule_singleton_append hd] at h
      by_cases hc : g.terminals.contains c = true
      · rw [if_pos hc] at h
        by_cases hs : s = ""
        · rw [if_pos hs] at h
          cases h
        · rw [if_neg hs] at h
          by_cases ht : g.isDefined s = true
          · rw [if_pos ht] at h
            cases h
          · rw [if_neg ht] at h
            obtain rfl := Except.error.inj h
            exact .undefined hc
      · rw [if_neg hc] at h
        obtain rfl := Except.error.inj h
        exact .notRightLinear (Bool.not_eq_true _ ▸ hc)

/-! ## The first fault -/

/-- There is one first fault at most. -/
theorem FirstFault.unique {m' p' : String} (h : g.FirstFault m p) (h' : g.FirstFault m' p') :
    m = m' ∧ p = p' := by
  have hle : ∀ {n q n' q'}, g.FirstFault n q → g.FirstFault n' q' → ¬ n < n' := by
    intro n q n' q' hq hq' hlt
    obtain ⟨i, hi, hfault, -⟩ := hq.here
    exact hfault (hq'.before n hlt q (List.mem_of_getElem? hi))
  obtain rfl : m = m' :=
    String.le_antisymm (String.not_lt.1 (hle h' h)) (String.not_lt.1 (hle h h'))
  exact ⟨rfl, h.here.unique h'.here⟩

theorem productionsOf_eq_of_mem {ps : List String} (h : (m, ps) ∈ g.productions.entries) :
    g.productionsOf m = ps := by
  rw [productionsOf, Table.get?_eq_some.2 h, Option.getD_some]

/-- Productions are added up to the first one that says no rule. -/
theorem Conversion.Progress.exists_of_addProductions (hl : g.Listed) {done : List (String × String)}
    {b : Conversion} (h : b.Progress g done) {ps : List String} (hm : m ∈ g.nonTerminals)
    (h' : Conversion.addProductions g b (m, ps) = .error e) :
    ∃ qs p rs, ps = qs ++ p :: rs ∧ (∀ q ∈ qs, g.RightLinear q) ∧ g.rule m p = .error e := by
  obtain ⟨source, -, hstate, -⟩ := h.state?_of_mem hm
  have hadd : ∀ ps, Conversion.addProductions g b (m, ps) =
      ps.foldlM (Conversion.addProduction g m source) b := by
    intro ps
    rw [Conversion.addProductions, hstate]
  rw [hadd] at h'
  obtain ⟨qs, p, rs, c, rfl, hqs, hp⟩ := exists_of_foldlM_eq_error h'
  refine ⟨qs, p, rs, rfl, fun q hq => (exists_rule_iff hl (m := m)).1 ?_, ?_⟩
  · -- the productions before it are those of an automaton under construction
    have hc := h.addProductions hl (e := (m, qs)) hm ((hadd qs).trans hqs)
    exact hc.rules m q (List.mem_append_right _ (List.mem_map.2 ⟨q, hq, rfl⟩))
  · rw [Conversion.addProduction_eq] at hp
    exact map_eq_error.1 hp

/-- **A conversion that fails reports the first fault.** -/
theorem exists_firstFault (hl : g.Listed) (h : g.toAutomaton = .error e) :
    ∃ m p, g.FirstFault m p ∧ g.Reports m p e := by
  have hfold : g.productions.entries.foldlM (Conversion.addProductions g)
      { automaton := g.nonTerminals.foldl Automaton.addState (.new g.terminals g.start) } = .error e := by
    cases hb : g.productions.entries.foldlM (Conversion.addProductions g)
        { automaton := g.nonTerminals.foldl Automaton.addState (.new g.terminals g.start) } with
    | error e' =>
      rw [toAutomaton, hb] at h
      exact congrArg _ (Except.error.inj h)
    | ok b =>
      rw [toAutomaton, hb] at h
      cases h
  obtain ⟨done, ⟨m, ps⟩, rest, b, hsplit, hb, hm⟩ := exists_of_foldlM_eq_error hfold
  have hsub : done ⊆ g.productions.entries := by
    rw [hsplit]
    exact List.subset_append_left _ _
  have hmem : (m, ps) ∈ g.productions.entries := by
    rw [hsplit]
    simp
  have hmt : m ∈ g.nonTerminals :=
    (hl.defined m).1 (Option.isSome_iff_exists.2 ⟨ps, Table.get?_eq_some.2 hmem⟩)
  have hprogress := Conversion.progress_of_foldlM hl hsub hb
  obtain ⟨qs, p, rs, rfl, hqs, hp⟩ := hprogress.exists_of_addProductions hl hmt hm
  refine ⟨m, p, ⟨?_, fun n hn q hq => ?_⟩, reports_of_rule hp⟩
  · rw [productionsOf_eq_of_mem hmem]
    refine .of_append (fun hfine => ?_) fun q hq => not_not_intro (hqs q hq)
    obtain ⟨r, hr⟩ := (exists_rule_iff hl).2 hfine
    rw [hp] at hr
    cases hr
  · -- the non-terminals of lesser names were visited before
    obtain ⟨⟨n', ps⟩, he, rfl, hps⟩ := mem_productionsOf.1 hq
    have hdone := (Table.mem_before_iff hsplit).2 ⟨he, compareOfLessAndEq_eq_lt.2 hn⟩
    exact (exists_rule_iff hl).1
      (hprogress.rules n' q (List.mem_flatMap.2 ⟨_, hdone, List.mem_map.2 ⟨q, hps, rfl⟩⟩))

theorem exists_toAutomaton_iff_rightLinear (hl : g.Listed) :
    (∃ a, g.toAutomaton = .ok a) ↔ ∀ m, ∀ p ∈ g.productionsOf m, g.RightLinear p := by
  rw [exists_toAutomaton_iff hl]
  simp only [mem_pairs, exists_rule_iff hl]

theorem toAutomaton_eq_error_iff (hl : g.Listed) :
    g.toAutomaton = .error e ↔ ∃ m p, g.FirstFault m p ∧ g.Reports m p e := by
  refine ⟨exists_firstFault hl, ?_⟩
  rintro ⟨m, p, hfirst, hreports⟩
  cases ha : g.toAutomaton with
  | ok a =>
    obtain ⟨i, hi, hfault, -⟩ := hfirst.here
    exact absurd ((exists_toAutomaton_iff_rightLinear hl).1 ⟨a, ha⟩ m p (List.mem_of_getElem? hi)) hfault
  | error e' =>
    obtain ⟨m', p', hfirst', hreports'⟩ := exists_firstFault hl ha
    obtain ⟨rfl, rfl⟩ := hfirst.unique hfirst'
    rw [hreports.unique hreports']

/-! ## Unit productions -/

section Units

variable {b : Conversion} (hl : g.Listed) (h : b.Progress g g.pairs)
include h

/-- Everything is declared and every symbol is a terminal, whatever the productions. -/
theorem Conversion.Progress.wellLabelled : b.automaton.WellLabelled := by
  refine ⟨h.named.closed_of_states h.filled h.states, fun q c targets ht => ?_⟩
  obtain ⟨r, hr⟩ := h.filled.targets q _ targets ht
  rw [h.alphabet]
  exact h.contains_of_hasMove (h.named.hasMove_display ⟨targets, ht, hr⟩)

include hl

/-- The moves on the empty label are the unit productions. -/
theorem Conversion.Progress.hasMove_none_iff : b.automaton.HasMove m none n ↔
    n ∈ g.productionsOf m ∧ n ∈ g.nonTerminals := by
  rw [h.hasMove_iff]
  constructor
  · rintro ⟨p, hp, r, hr, hmove⟩
    have hrule := rule_eq_ok.1 hr
    cases r with
    | unit target =>
      obtain ⟨hd, rfl⟩ := hrule
      obtain rfl : p = n := (Prod.mk.inj (Option.some.inj hmove)).2
      exact ⟨hp, (hl.defined p).1 hd⟩
    | stop => cases hmove
    | last c => cases hmove
    | next c target => cases hmove
  · rintro ⟨hp, hn⟩
    exact ⟨n, hp, _, rule_of_isDefined ((hl.defined n).2 hn), rfl⟩

/-- The states with a transition on the empty label are the non-terminals with a unit production. -/
theorem Conversion.Progress.exists_targets?_none_iff {q : Nat} :
    (∃ targets, b.automaton.targets? q none = some targets) ↔
      ∃ m, g.nonTerminals[q]? = some m ∧ g.HasUnit m := by
  constructor
  · rintro ⟨targets, ht⟩
    obtain ⟨r, hr⟩ := h.filled.targets q none targets ht
    have hedge : b.automaton.HasEdge q none r := ⟨targets, ht, hr⟩
    have hname := Automaton.name?_eq_display (h.named.edges q none r hedge).1
    obtain ⟨hp, hn⟩ := (h.hasMove_none_iff hl).1 (h.named.hasMove_display hedge)
    have hm : b.automaton.display q ∈ g.nonTerminals := by
      obtain ⟨e, he, heq, -⟩ := mem_productionsOf.1 hp
      exact heq ▸ (hl.defined e.1).1 (Option.isSome_iff_exists.2 ⟨e.2, Table.get?_eq_some.2 he⟩)
    obtain ⟨q', hq', -, -⟩ := h.state?_of_mem hm
    obtain rfl := h.named.eq_of_name? hname (h.name?_source hq')
    exact ⟨_, hq', _, hp, hn⟩
  · rintro ⟨m, hm, p, hp, hn⟩
    obtain ⟨q', r, ⟨targets, ht, -⟩, hq', -⟩ := (h.hasMove_none_iff hl).2 ⟨hp, hn⟩
    obtain rfl := h.named.eq_of_name? hq' (h.name?_source hm)
    exact ⟨targets, ht⟩

/-- The least state with a transition on the empty label is the first non-terminal with a unit production. -/
theorem Conversion.Progress.validate_eq_error_iff {e : AutomatonError} :
    b.automaton.validate = .error e ↔
      ∃ n, IsFirst g.HasUnit g.nonTerminals n ∧ e = .epsilonTransition n := by
  have hdisplay : ∀ {q n}, g.nonTerminals[q]? = some n → b.automaton.display q = n :=
    fun hq => Automaton.display_of_getElem? (h.name?_source hq)
  rw [h.wellLabelled.validate_eq_error_iff]
  constructor
  · rintro ⟨q, ⟨hq, hleast⟩, rfl⟩
    obtain ⟨n, hn, hunit⟩ := (h.exists_targets?_none_iff hl).1 hq
    refine ⟨n, ⟨q, hn, hunit, fun r hr m hm hunit' => ?_⟩, by rw [hdisplay hn]⟩
    obtain ⟨targets, ht⟩ := (h.exists_targets?_none_iff hl).2 ⟨m, hm, hunit'⟩
    rw [hleast r hr] at ht
    cases ht
  · rintro ⟨n, ⟨q, hn, hunit, hbefore⟩, rfl⟩
    refine ⟨q, ⟨(h.exists_targets?_none_iff hl).2 ⟨n, hn, hunit⟩, fun r hr => ?_⟩, by rw [hdisplay hn]⟩
    rw [Option.eq_none_iff_forall_ne_some]
    intro targets ht
    obtain ⟨m, hm, hunit'⟩ := (h.exists_targets?_none_iff hl).1 ⟨targets, ht⟩
    exact hbefore r hr m hm hunit'

theorem Conversion.Progress.validate_eq_ok_iff :
    b.automaton.validate = .ok () ↔ ∀ m, ∀ p ∈ g.productionsOf m, p ∉ g.nonTerminals := by
  rw [Automaton.validate_eq_ok_iff, h.wellLabelled.valid_iff]
  constructor
  · intro hnone m p hp hn
    obtain ⟨q, r, ⟨targets, ht, -⟩, -⟩ := (h.hasMove_none_iff hl).2 ⟨hp, hn⟩
    rw [hnone q] at ht
    cases ht
  · intro hno q
    rw [Option.eq_none_iff_forall_ne_some]
    intro targets ht
    obtain ⟨m, -, p, hp, hn⟩ := (h.exists_targets?_none_iff hl).1 ⟨targets, ht⟩
    exact hno m p hp hn

end Units

/-- **What the conversion of a grammar and the check of its automaton answer.** -/
theorem toAutomaton_outcome (hg : g.Built) :
    ((∃ a, g.toAutomaton = .ok a) ↔ ∀ m, ∀ p ∈ g.productionsOf m, g.RightLinear p) ∧
    (∀ e, g.toAutomaton = .error e ↔ ∃ m p, g.FirstFault m p ∧ g.Reports m p e) ∧
    (∀ a, g.toAutomaton = .ok a →
      (a.validate = .ok () ↔ ∀ m, ∀ p ∈ g.productionsOf m, p ∉ g.nonTerminals) ∧
      ∀ e, a.validate = .error e ↔
        ∃ n, IsFirst g.HasUnit g.nonTerminals n ∧ e = .epsilonTransition n) := by
  have hl := hg.listed
  refine ⟨exists_toAutomaton_iff_rightLinear hl, fun e => toAutomaton_eq_error_iff hl, fun a ha => ?_⟩
  obtain ⟨b, hb, rfl⟩ := toAutomaton_progress hl ha
  exact ⟨hb.validate_eq_ok_iff hl, fun e => hb.validate_eq_error_iff hl⟩

/-- A grammar with a fault of each kind, that of the lesser name after the other one. -/
def faulty : Except GrammarError Grammar := do
  let g ← alternating
  let g ← g.addProduction "S" "c"
  g.addProduction "F" "aX"

/-- A grammar with unit productions, that of the lesser name in the later non-terminal. -/
def circular : Except GrammarError Grammar := do
  let g ← alternating
  let g ← g.addNonTerminal "A"
  let g ← g.addProduction "A" "S"
  g.addProduction "F" "A"

theorem built_faulty {g : Grammar} (h : faulty = .ok g) : g.Built := by
  obtain ⟨g₁, h₁, h⟩ := bind_eq_ok.1 h
  obtain ⟨g₂, h₂, h⟩ := bind_eq_ok.1 h
  exact ((built_alternating h₁).addProduction h₂).addProduction h

theorem built_circular {g : Grammar} (h : circular = .ok g) : g.Built := by
  obtain ⟨g₁, h₁, h⟩ := bind_eq_ok.1 h
  obtain ⟨g₂, h₂, h⟩ := bind_eq_ok.1 h
  obtain ⟨g₃, h₃, h⟩ := bind_eq_ok.1 h
  exact (((built_alternating h₁).addNonTerminal h₂).addProduction h₃).addProduction h

theorem toAutomaton_outcome_faulty :
    (∃ g, faulty = .ok g ∧ g.toAutomaton = .error (.undefinedNonTerminal "X") ∧
      ∃ m p, g.FirstFault m p ∧ g.Reports m p (.undefinedNonTerminal "X")) ∧
    ∃ g a, circular = .ok g ∧ g.toAutomaton = .ok a ∧ a.validate = .error (.epsilonTransition "F") ∧
      IsFirst g.HasUnit g.nonTerminals "F" := by
  have hfaulty : (faulty.toOption.map fun g => match g.toAutomaton with
      | .error e => some e
      | .ok _ => none) = some (some (.undefinedNonTerminal "X")) := by
    decide +kernel
  have hcircular : (circular.toOption.bind fun g => g.toAutomaton.toOption.map fun a =>
      match a.validate with
      | .error e => some e
      | .ok _ => none) = some (some (.epsilonTransition "F")) := by
    decide +kernel
  constructor
  · obtain ⟨g, hg, h⟩ := Option.map_eq_some_iff.1 hfaulty
    have hg : faulty = .ok g := toOption_eq_some.1 hg
    cases ha : g.toAutomaton with
    | ok a =>
      rw [ha] at h
      cases h
    | error e =>
      rw [ha] at h
      obtain rfl : e = _ := Option.some.inj h
      exact ⟨g, hg, ha, ((toAutomaton_outcome (built_faulty hg)).2.1 _).1 ha⟩
  · obtain ⟨g, hg, h⟩ := Option.bind_eq_some_iff.1 hcircular
    obtain ⟨a, ha, h⟩ := Option.map_eq_some_iff.1 h
    have hg : circular = .ok g := toOption_eq_some.1 hg
    have ha : g.toAutomaton = .ok a := toOption_eq_some.1 ha
    cases hv : a.validate with
    | ok u =>
      rw [hv] at h
      cases h
    | error e =>
      rw [hv] at h
      obtain rfl : e = _ := Option.some.inj h
      obtain ⟨n, hn, heq⟩ := (((toAutomaton_outcome (built_circular hg)).2.2 a ha).2 _).1 hv
      obtain rfl := AutomatonError.epsilonTransition.inj heq
      exact ⟨g, a, hg, ha, hv, hn⟩

end Grammar

end FiniteAutomata
