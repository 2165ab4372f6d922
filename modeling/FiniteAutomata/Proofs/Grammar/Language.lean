import FiniteAutomata.Proofs.Grammar.Conversion

/-!
# The language of a grammar

`Derives` says which words a non-terminal derives, production by production. Main theorem
`accepts_toAutomaton`: when no production is the name of a non-terminal, the automaton of a grammar accepts
the words that the start symbol derives.
-/
namespace FiniteAutomata.Grammar

/-- The words that a name derives: with an empty production the empty word, with one of a symbol alone that
symbol, and otherwise the symbol followed by a word that the rest of the production derives. -/
inductive Derives (g : Grammar) : String → List Char → Prop where
  | nil {A : String} (h : "" ∈ g.productionsOf A) : Derives g A []
  | last {A : String} {c : Char} (h : String.singleton c ∈ g.productionsOf A) : Derives g A [c]
  | next {A B : String} {c : Char} {w : List Char} (h : String.singleton c ++ B ∈ g.productionsOf A)
      (hB : B ≠ "") (hw : Derives g B w) : Derives g A (c :: w)

variable {g : Grammar} {A : String} {c : Char} {w : List Char}

theorem derives_nil : g.Derives A [] ↔ "" ∈ g.productionsOf A := by
  constructor
  · intro h
    cases h with
    | nil h => exact h
  · exact .nil

theorem derives_cons : g.Derives A (c :: w) ↔ String.singleton c ∈ g.productionsOf A ∧ w = [] ∨
    ∃ B, String.singleton c ++ B ∈ g.productionsOf A ∧ B ≠ "" ∧ g.Derives B w := by
  constructor
  · intro h
    cases h with
    | last h => exact .inl ⟨h, rfl⟩
    | next h hB hw => exact .inr ⟨_, h, hB, hw⟩
  · rintro (⟨h, rfl⟩ | ⟨B, h, hB, hw⟩)
    · exact .last h
    · exact .next h hB hw

/-! ## Productions that are no names -/

/-- No production is the name of a non-terminal. -/
def NoUnits (g : Grammar) : Prop := ∀ A, ∀ p ∈ g.productionsOf A, g.isDefined p = false

theorem rule_eq_stop (hu : g.NoUnits) {p : String} (hp : p ∈ g.productionsOf A) :
    g.rule A p = .ok .stop ↔ p = "" := by
  rw [rule_eq_ok, Rule.Says, and_iff_right (hu A p hp)]

/-- What follows the first symbol of a production that can be read is a non-terminal. -/
theorem isDefined_of_rule {B : String} {r : Rule} (hd : g.isDefined (String.singleton c ++ B) = false)
    (hB : B ≠ "") (hr : g.rule A (String.singleton c ++ B) = .ok r) : g.isDefined B = true := by
  rw [rule_singleton_append hd, if_neg hB] at hr
  split at hr
  · split at hr
    · assumption
    · cases hr
  · cases hr

/-- The moves of productions that can be read, none of which is a unit. -/
theorem saysMove_iff (hu : g.NoUnits) {p n : String} (hp : p ∈ g.productionsOf A)
    (hr : ∃ r, g.rule A p = .ok r) :
    g.SaysMove A p (some c) n ↔
      p = String.singleton c ∧ n = g.sink ∨ n ≠ "" ∧ p = String.singleton c ++ n := by
  have hd := hu A p hp
  obtain ⟨r, hr⟩ := hr
  have hsays := rule_eq_ok.1 hr
  have hmove : g.SaysMove A p (some c) n ↔ r.move? g.sink = some (some c, n) := by
    unfold SaysMove
    simp [hr]
  rw [hmove]
  cases r with
  | unit m =>
    obtain ⟨hd', -⟩ := hsays
    rw [hd] at hd'
    cases hd'
  | stop =>
    obtain ⟨-, rfl⟩ := hsays
    refine iff_of_false nofun ?_
    rintro (⟨h, -⟩ | ⟨-, h⟩)
    · cases String.singleton_ne_empty h.symm
    · exact singleton_append_ne_empty c n h.symm
  | last d =>
    obtain ⟨-, rfl, -⟩ := hsays
    rw [singleton_eq_singleton_append, String.singleton_inj]
    simp only [Rule.move?, Option.some.injEq, Prod.mk.injEq]
    grind
  | next d m =>
    obtain ⟨-, rfl, hne, -, ht⟩ := hsays
    rw [String.singleton_append_inj, eq_comm (b := String.singleton c), singleton_eq_singleton_append]
    simp only [Rule.move?, Option.some.injEq, Prod.mk.injEq]
    grind

/-! ## Words -/

section Words
variable {b : Conversion} (h : b.Progress g g.pairs) (hu : g.NoUnits)
include h

theorem Conversion.Progress.hasMove_iff {m n : String} {label : Label} :
    b.automaton.HasMove m label n ↔ ∃ p ∈ g.productionsOf m, g.SaysMove m p label n := by
  rw [h.moves]
  simp only [mem_pairs]

theorem Conversion.Progress.rule_ok {p : String} (hp : p ∈ g.productionsOf A) : ∃ r, g.rule A p = .ok r :=
  h.rules A p (mem_pairs.2 hp)

/-- Only symbols of the alphabet label transitions. -/
theorem Conversion.Progress.contains_of_hasMove {m n : String}
    (hm : b.automaton.HasMove m (some c) n) : g.terminals.contains c = true := by
  obtain ⟨p, -, r, hr, hmove⟩ := h.hasMove_iff.1 hm
  have hsays := rule_eq_ok.1 hr
  cases r with
  | unit target => cases hmove
  | stop => cases hmove
  | last d =>
    cases hmove
    exact hsays.2.2
  | next d target =>
    cases hmove
    exact hsays.2.2.2.1

theorem Conversion.Progress.contains_of_takes {n : String} (hw : b.automaton.Takes n w) :
    ∀ c ∈ w, b.automaton.alphabet.contains c = true := by
  induction w generalizing n with
  | nil => exact fun c hc => absurd hc List.not_mem_nil
  | cons c w ih =>
    obtain ⟨m, hm, hw⟩ := hw
    refine List.forall_mem_cons.2 ⟨?_, ih hw⟩
    rw [h.alphabet]
    exact h.contains_of_hasMove hm

/-- The state that productions of a symbol alone lead to only takes the empty word. -/
theorem Conversion.Progress.takes_sink (hl : g.Listed) {A : String}
    (hm : b.automaton.HasMove A (some c) g.sink) : b.automaton.Takes g.sink w ↔ w = [] := by
  cases w with
  | nil =>
    refine iff_of_true ((h.finals g.sink).2 (.inr ⟨rfl, ?_⟩)) rfl
    obtain ⟨-, r, -, -, hr⟩ := hm
    have hmem : g.sink ∈ b.automaton.names := List.mem_of_getElem? hr
    rcases h.names with ⟨-, hn⟩ | ⟨hs, -⟩
    · exact absurd (hn ▸ hmem) g.sink_not_mem
    · rw [hs]
      rfl
  | cons d w =>
    refine iff_of_false ?_ nofun
    rintro ⟨n, hn, -⟩
    obtain ⟨p, hp, -⟩ := h.hasMove_iff.1 hn
    obtain ⟨e, he, hname, -⟩ := mem_productionsOf.1 hp
    have hd : g.isDefined g.sink = true :=
      Option.isSome_iff_exists.2 ⟨e.2, Table.get?_eq_some.2 (hname ▸ he)⟩
    exact g.sink_not_mem ((hl.defined _).1 hd)

include hu

/-- **A non-terminal takes the words that it derives.** -/
theorem Conversion.Progress.takes_iff_derives (hl : g.Listed) (hA : A ∈ g.nonTerminals) :
    b.automaton.Takes A w ↔ g.Derives A w := by
  induction w generalizing A with
  | nil =>
    have hne : A ≠ g.sink := fun e => g.sink_not_mem (e ▸ hA)
    have hfinal : b.automaton.HasFinal A ↔ ∃ p ∈ g.productionsOf A, g.rule A p = .ok .stop := by
      rw [h.finals, or_iff_left fun e => hne e.1]
      simp only [mem_pairs]
    show b.automaton.HasFinal A ↔ g.Derives A []
    rw [hfinal, derives_nil]
    constructor
    · rintro ⟨p, hp, hr⟩
      exact (rule_eq_stop hu hp).1 hr ▸ hp
    · exact fun hp => ⟨"", hp, (rule_eq_stop hu hp).2 rfl⟩
  | cons c w ih =>
    have hmove : ∀ {p n}, p ∈ g.productionsOf A → (g.SaysMove A p (some c) n ↔
        p = String.singleton c ∧ n = g.sink ∨ n ≠ "" ∧ p = String.singleton c ++ n) :=
      fun hp => saysMove_iff hu hp (h.rule_ok hp)
    have hnext : ∀ {B}, String.singleton c ++ B ∈ g.productionsOf A → B ≠ "" → B ∈ g.nonTerminals := by
      intro B hp hB
      obtain ⟨r, hr⟩ := h.rule_ok hp
      exact (hl.defined B).1 (isDefined_of_rule (hu A _ hp) hB hr)
    rw [derives_cons]
    constructor
    · rintro ⟨n, hm, hw⟩
      obtain ⟨p, hp, hsays⟩ := h.hasMove_iff.1 hm
      rcases (hmove hp).1 hsays with ⟨rfl, rfl⟩ | ⟨hne, rfl⟩
      · exact .inl ⟨hp, (h.takes_sink hl hm).1 hw⟩
      · exact .inr ⟨n, hp, hne, (ih (hnext hp hne)).1 hw⟩
    · rintro (⟨hp, rfl⟩ | ⟨B, hp, hne, hw⟩)
      · have hm : b.automaton.HasMove A (some c) g.sink :=
          h.hasMove_iff.2 ⟨_, hp, (hmove hp).2 (.inl ⟨rfl, rfl⟩)⟩
        exact ⟨g.sink, hm, (h.takes_sink hl hm).2 rfl⟩
      · exact ⟨B, h.hasMove_iff.2 ⟨_, hp, (hmove hp).2 (.inr ⟨hne, rfl⟩)⟩, (ih (hnext hp hne)).2 hw⟩

end Words

/-- **The automaton of a grammar accepts the words that the start symbol derives**, when no production is the
name of a non-terminal. -/
theorem accepts_toAutomaton (hg : g.Built) {a : Automaton} (h : g.toAutomaton = .ok a)
    (hu : ∀ A, ∀ p ∈ g.productionsOf A, p ∉ g.nonTerminals) (w : List Char) :
    a.accepts w = true ↔ g.Derives g.start w := by
  have hl := hg.listed
  have hu : g.NoUnits := by
    intro A p hp
    rw [← Bool.not_eq_true, hl.defined]
    exact hu A p hp
  obtain ⟨b, hb, rfl⟩ := toAutomaton_progress hl h
  obtain ⟨ns, hns⟩ := hl.start
  have hzero : g.nonTerminals[0]? = some g.start := by rw [hns]; rfl
  have hname : b.automaton.name? b.automaton.initial = some g.start := by
    rw [hb.initial]
    exact hb.name?_source hzero
  rw [hb.named.accepts_iff hname, ← hb.takes_iff_derives hu hl (List.mem_of_getElem? hzero)]
  exact and_iff_right_of_imp hb.contains_of_takes

/-- A grammar with a non-terminal of the name that is tried first for the added final state. -/
def alternating : Except GrammarError Grammar := do
  let g ← (new (.ofSymbols ['a', 'b']) "S").addNonTerminal "F"
  let g ← g.addProduction "S" "aF"
  let g ← g.addProduction "S" "b"
  let g ← g.addProduction "F" "bS"
  g.addProduction "F" ""

theorem built_alternating {g : Grammar} (h : alternating = .ok g) : g.Built := by
  obtain ⟨g₁, h₁, h⟩ := bind_eq_ok.1 h
  obtain ⟨g₂, h₂, h⟩ := bind_eq_ok.1 h
  obtain ⟨g₃, h₃, h⟩ := bind_eq_ok.1 h
  obtain ⟨g₄, h₄, h⟩ := bind_eq_ok.1 h
  exact ((((Built.new _ _).addNonTerminal h₁).addProduction h₂).addProduction h₃ |>.addProduction
    h₄).addProduction h

theorem accepts_toAutomaton_alternating :
    ∃ g a, alternating = .ok g ∧ g.toAutomaton = .ok a ∧ g.Derives "S" ['a', 'b', 'b'] ∧
      a.accepts ['a', 'b', 'b'] = true ∧ ¬ g.Derives "S" ['b', 'b'] := by
  have h : (alternating.toOption.bind fun g => g.toAutomaton.toOption.map fun a =>
      (decide (∀ e ∈ g.pairs, e.2 ∉ g.nonTerminals), decide (g.start = "S"),
        a.accepts ['a', 'b', 'b'], a.accepts ['b', 'b'])) = some (true, true, true, false) := by
    decide +kernel
  obtain ⟨g, hg, h⟩ := Option.bind_eq_some_iff.1 h
  obtain ⟨a, ha, h⟩ := Option.map_eq_some_iff.1 h
  simp only [Prod.mk.injEq, decide_eq_true_eq] at h
  obtain ⟨hu, hstart, habb, hbb⟩ := h
  have hg : alternating = .ok g := toOption_eq_some.1 hg
  have ha : g.toAutomaton = .ok a := toOption_eq_some.1 ha
  have hiff := accepts_toAutomaton (built_alternating hg) ha fun A p hp => hu (A, p) (mem_pairs.2 hp)
  rw [hstart] at hiff
  refine ⟨g, a, hg, ha, (hiff _).1 habb, habb, fun hd => ?_⟩
  rw [(hiff _).2 hd] at hbb
  cases hbb

end FiniteAutomata.Grammar
