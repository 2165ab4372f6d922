import FiniteAutomata.Proofs.Grammar.Language
import FiniteAutomata.Proofs.Grammar.Mirroring

/-!
# From an automaton to its grammar and back

A transition is written as its symbol followed by the name of its destination. Where this text is itself the
name of a state, it is read back as a transition without a symbol, which no word follows: the transition is
misread. Main theorem `accepts_toAutomaton_ofAutomaton`: the grammar of a valid automaton, whose states show
distinct names, is converted to an automaton of the words that are accepted along the other transitions. So
the language is kept where no transition is misread, and may be lost otherwise (`reject_misread`).
-/
namespace FiniteAutomata

namespace Automaton

/-- The declared states show distinct names, and none of them is empty. -/
structure WellNamed (a : Automaton) : Prop where
  nonempty : ∀ q ∈ a.states, a.display q ≠ ""
  injective : ∀ p ∈ a.states, ∀ q ∈ a.states, a.display p = a.display q → p = q

instance (a : Automaton) : Decidable a.WellNamed :=
  decidable_of_iff ((∀ q ∈ a.states.toList, a.display q ≠ "") ∧
      ∀ p ∈ a.states.toList, ∀ q ∈ a.states.toList, a.display p = a.display q → p = q)
    ⟨fun ⟨hne, hinj⟩ => ⟨hne, hinj⟩, fun h => ⟨h.nonempty, h.injective⟩⟩

/-- The symbol followed by the name of the state is the name of a declared state. -/
def Misread (a : Automaton) (c : Char) (r : Nat) : Prop :=
  ∃ q ∈ a.states, a.display q = String.singleton c ++ a.display r

/-- The word leads from the first state to the second along transitions that are not misread. -/
inductive LeadsClearly (a : Automaton) : Nat → List Char → Nat → Prop where
  | refl (q : Nat) : LeadsClearly a q [] q
  | step {q r t : Nat} {c : Char} {w : List Char} (he : a.HasEdge q (some c) r) (hc : ¬ a.Misread c r)
      (h : LeadsClearly a r w t) : LeadsClearly a q (c :: w) t

variable {a : Automaton} {q r : Nat} {c : Char} {w : List Char}

theorem leadsClearly_nil : a.LeadsClearly q [] r ↔ q = r := by
  constructor
  · intro h
    cases h
    rfl
  · rintro rfl
    exact .refl q

theorem leadsClearly_cons : a.LeadsClearly q (c :: w) r ↔
    ∃ t, a.HasEdge q (some c) t ∧ ¬ a.Misread c t ∧ a.LeadsClearly t w r := by
  constructor
  · intro h
    cases h with
    | step he hc h => exact ⟨_, he, hc, h⟩
  · rintro ⟨t, he, hc, h⟩
    exact .step he hc h

theorem LeadsClearly.leads (h : a.LeadsClearly q w r) : a.Leads q w r := by
  induction h with
  | refl q => exact .refl q
  | step he hc h ih =>
    obtain ⟨targets, ht, hm⟩ := he
    exact .step ht hm ih

theorem Leads.clearly (hc : ∀ q c r, a.HasEdge q (some c) r → ¬ a.Misread c r) (h : a.Leads q w r) :
    a.LeadsClearly q w r := by
  induction h with
  | refl q => exact .refl q
  | step ht hm h ih => exact .step ⟨_, ht, hm⟩ (hc _ _ _ ⟨_, ht, hm⟩) ih

end Automaton

namespace Grammar

variable {a : Automaton} {q r : Nat} {c : Char} {m n p : String} {w : List Char}

/-! ## How the productions are read -/

theorem mem_productionsOf_display (hn : a.WellNamed) (hq : q ∈ a.states) :
    p ∈ (ofAutomaton a).productionsOf (a.display q) ↔ p ∈ stateProductions a q := by
  rw [mem_productionsOf_ofAutomaton]
  constructor
  · rintro ⟨r, hr, hname, hp⟩
    rwa [hn.injective q hq r hr hname.symm]
  · exact fun hp => ⟨q, hq, rfl, hp⟩

/-- The non-terminals are the names of the declared states, as the initial state is one of them. -/
theorem isDefined_iff_of_initial (hi : a.initial ∈ a.states) :
    (ofAutomaton a).isDefined n = true ↔ ∃ q ∈ a.states, n = a.display q := by
  rw [isDefined_ofAutomaton]
  exact or_iff_right_of_imp fun e => ⟨a.initial, hi, e⟩

/-- No state is named by the empty production. -/
theorem rule_empty_ofAutomaton (hi : a.initial ∈ a.states) (hn : a.WellNamed) :
    (ofAutomaton a).rule m "" = .ok .stop := by
  refine rule_empty ?_
  rw [← Bool.not_eq_true, isDefined_iff_of_initial hi]
  rintro ⟨q, hq, hname⟩
  exact hn.nonempty q hq hname.symm

theorem rule_next_ofAutomaton (hi : a.initial ∈ a.states) (hn : a.WellNamed) (hr : r ∈ a.states)
    (hc : a.alphabet.contains c = true) (h : ¬ a.Misread c r) :
    (ofAutomaton a).rule m (String.singleton c ++ a.display r) = .ok (.next c (a.display r)) := by
  refine rule_eq_ok.2 ⟨?_, rfl, hn.nonempty r hr, ?_, ?_⟩
  · rw [← Bool.not_eq_true, isDefined_iff_of_initial hi]
    rintro ⟨p, hp, hname⟩
    exact h ⟨p, hp, hname.symm⟩
  · rw [(ofAutomaton_eq a).1, hc]
  · exact (isDefined_iff_of_initial hi).2 ⟨r, hr, rfl⟩

section Rules
variable (hv : a.Valid)
include hv

/-- The non-terminals are the names of the declared states. -/
theorem isDefined_ofValid : (ofAutomaton a).isDefined n = true ↔ ∃ q ∈ a.states, n = a.display q :=
  isDefined_iff_of_initial hv.initial

theorem mem_stateProductions_ofValid : p ∈ stateProductions a q ↔
    (∃ c r, a.HasEdge q (some c) r ∧ p = String.singleton c ++ a.display r) ∨ q ∈ a.finals ∧ p = "" := by
  rw [mem_stateProductions]
  refine or_congr_left ⟨?_, ?_⟩
  · rintro ⟨label, r, he, rfl⟩
    obtain ⟨c, rfl, -, -⟩ := hv.of_hasEdge he
    exact ⟨c, r, he, rfl⟩
  · rintro ⟨c, r, he, rfl⟩
    exact ⟨some c, r, he, rfl⟩

theorem rule_of_misread (h : a.Misread c r) :
    (ofAutomaton a).rule m (String.singleton c ++ a.display r) =
      .ok (.unit (String.singleton c ++ a.display r)) := by
  obtain ⟨q, hq, hname⟩ := h
  exact rule_of_isDefined ((isDefined_ofValid hv).2 ⟨q, hq, hname.symm⟩)

variable (hn : a.WellNamed)
include hn

theorem rule_empty_ofValid : (ofAutomaton a).rule m "" = .ok .stop := rule_empty_ofAutomaton hv.initial hn

theorem rule_of_not_misread (he : a.HasEdge q (some c) r) (h : ¬ a.Misread c r) :
    (ofAutomaton a).rule m (String.singleton c ++ a.display r) = .ok (.next c (a.display r)) := by
  obtain ⟨d, hd, hcont, hr⟩ := hv.of_hasEdge he
  obtain rfl := Option.some.inj hd
  exact rule_next_ofAutomaton hv.initial hn hr hcont h

/-- Each production can be read. -/
theorem exists_rule (hp : p ∈ (ofAutomaton a).productionsOf m) : ∃ r, (ofAutomaton a).rule m p = .ok r := by
  obtain ⟨q, -, -, hp⟩ := mem_productionsOf_ofAutomaton.1 hp
  rcases (mem_stateProductions_ofValid hv).1 hp with ⟨c, r, he, rfl⟩ | ⟨-, rfl⟩
  · by_cases h : a.Misread c r
    · exact ⟨_, rule_of_misread hv h⟩
    · exact ⟨_, rule_of_not_misread hv hn he h⟩
  · exact ⟨_, rule_empty_ofValid hv hn⟩

/-! ## The automaton that is built again -/

variable {b : Conversion} (h : b.Progress (ofAutomaton a) (ofAutomaton a).pairs)
include h

/-- The moves on symbols are the transitions that are not misread. -/
theorem hasMove_display (hq : q ∈ a.states) : b.automaton.HasMove (a.display q) (some c) n ↔
    ∃ r, a.HasEdge q (some c) r ∧ ¬ a.Misread c r ∧ n = a.display r := by
  rw [h.hasMove_iff]
  constructor
  · rintro ⟨p, hp, rule, hrule, hmove⟩
    rw [mem_productionsOf_display hn hq, mem_stateProductions_ofValid hv] at hp
    rcases hp with ⟨d, r, he, rfl⟩ | ⟨-, rfl⟩
    · by_cases hc : a.Misread d r
      · rw [rule_of_misread hv hc] at hrule
        cases hrule
        cases hmove
      · rw [rule_of_not_misread hv hn he hc] at hrule
        cases hrule
        cases hmove
        exact ⟨r, he, hc, rfl⟩
    · rw [rule_empty_ofValid hv hn] at hrule
      cases hrule
      cases hmove
  · rintro ⟨r, he, hc, rfl⟩
    have hp : String.singleton c ++ a.display r ∈ stateProductions a q :=
      (mem_stateProductions_ofValid hv).2 (.inl ⟨c, r, he, rfl⟩)
    exact ⟨_, (mem_productionsOf_display hn hq).2 hp, _, rule_of_not_misread hv hn he hc, rfl⟩

theorem hasFinal_display (hq : q ∈ a.states) : b.automaton.HasFinal (a.display q) ↔ q ∈ a.finals := by
  have hne : a.display q ≠ (ofAutomaton a).sink := by
    intro e
    have hd := (isDefined_ofValid hv).2 ⟨q, hq, rfl⟩
    exact (ofAutomaton a).sink_not_mem (e ▸ ((listed_ofAutomaton a).defined _).1 hd)
  rw [h.finals, or_iff_left fun e => hne e.1]
  simp only [mem_pairs, mem_productionsOf_display hn hq]
  constructor
  · rintro ⟨p, hp, hrule⟩
    obtain ⟨-, rfl⟩ := rule_eq_ok.1 hrule
    rcases (mem_stateProductions_ofValid hv).1 hp with ⟨c, r, -, hempty⟩ | ⟨hf, -⟩
    · exact absurd hempty.symm (singleton_append_ne_empty c _)
    · exact hf
  · intro hf
    exact ⟨"", (mem_stateProductions_ofValid hv).2 (.inr ⟨hf, rfl⟩), rule_empty_ofValid hv hn⟩

/-- **A name takes the words that lead clearly from its state to a final one.** -/
theorem takes_display (hq : q ∈ a.states) :
    b.automaton.Takes (a.display q) w ↔ ∃ r ∈ a.finals, a.LeadsClearly q w r := by
  -- a move leads to the name of a declared state, so the induction stays among those
  induction w generalizing q with
  | nil =>
    show b.automaton.HasFinal (a.display q) ↔ _
    rw [hasFinal_display hv hn h hq]
    simp [Automaton.leadsClearly_nil]
  | cons c w ih =>
    have hdecl : ∀ {r}, a.HasEdge q (some c) r → r ∈ a.states := by
      intro r he
      obtain ⟨-, -, -, hr⟩ := hv.of_hasEdge he
      exact hr
    show (∃ n, b.automaton.HasMove (a.display q) (some c) n ∧ b.automaton.Takes n w) ↔ _
    simp only [hasMove_display hv hn h hq, Automaton.leadsClearly_cons]
    constructor
    · rintro ⟨n, ⟨t, he, hc, rfl⟩, hw⟩
      obtain ⟨r, hr, hl⟩ := (ih (hdecl he)).1 hw
      exact ⟨r, hr, t, he, hc, hl⟩
    · rintro ⟨r, hr, t, he, hc, hl⟩
      exact ⟨_, ⟨t, he, hc, rfl⟩, (ih (hdecl he)).2 ⟨r, hr, hl⟩⟩

end Rules

/-! ## The main theorem -/

/-- **The grammar of a valid automaton, whose states show distinct names, is converted to an automaton of the
words that are accepted along the transitions that are not misread.** It accepts no other words than the
automaton, and all of them where no transition is misread. -/
theorem accepts_toAutomaton_ofAutomaton (hv : a.validate = .ok ()) (hn : a.WellNamed) :
    ∃ b, (ofAutomaton a).toAutomaton = .ok b ∧
      (∀ w, b.accepts w = true ↔ ∃ r ∈ a.finals, a.LeadsClearly a.initial w r) ∧
      (∀ w, b.accepts w = true → a.accepts w = true) ∧
      ((∀ q c r, a.HasEdge q (some c) r → ¬ a.Misread c r) → ∀ w, b.accepts w = a.accepts w) := by
  have hv : a.Valid := Automaton.validate_eq_ok_iff.1 hv
  have hl := listed_ofAutomaton a
  obtain ⟨b, hb⟩ := (exists_toAutomaton_iff hl).2 fun m p hp => exists_rule hv hn (mem_pairs.1 hp)
  obtain ⟨k, hk, rfl⟩ := toAutomaton_progress hl hb
  have hname : k.automaton.name? k.automaton.initial = some (a.display a.initial) := by
    obtain ⟨ns, hns⟩ := hl.start
    rw [hk.initial, ← (ofAutomaton_eq a).2]
    exact hk.name?_source (by rw [hns]; rfl)
  have haccepts : ∀ w, k.automaton.accepts w = true ↔ ∃ r ∈ a.finals, a.LeadsClearly a.initial w r := by
    intro w
    rw [hk.named.accepts_iff hname, takes_display hv hn hk hv.initial]
    refine and_iff_right_of_imp fun hw => ?_
    exact hk.contains_of_takes ((takes_display hv hn hk hv.initial).2 hw)
  refine ⟨_, hb, haccepts, fun w hw => ?_, fun hc w => ?_⟩
  · obtain ⟨r, hr, hl⟩ := (haccepts w).1 hw
    exact hv.accepts_iff.2 ⟨r, hr, hl.leads⟩
  · rw [Bool.eq_iff_iff, haccepts, hv.accepts_iff]
    constructor
    · rintro ⟨r, hr, hl⟩
      exact ⟨r, hr, hl.leads⟩
    · rintro ⟨r, hr, hl⟩
      exact ⟨r, hr, hl.clearly hc⟩

/-- Names that start with symbols, or are symbols followed by other names. -/
def prefixed : Automaton where
  names := ["q", "aq", "b"]
  alphabet := .ofSymbols ['a', 'b']
  states := .below 3
  initial := 0
  finals := .ofList [2]
  transitions := .ofList
    [(0, .ofList [(some 'b', .ofList [1, 2])]),
      (1, .ofList [(some 'a', .ofList [1]), (some 'b', .ofList [0])])]

theorem accepts_toAutomaton_ofAutomaton_prefixed :
    ∃ b, (ofAutomaton prefixed).toAutomaton = .ok b ∧ b.accepts ['b', 'a', 'b', 'b'] = true ∧
      b.accepts ['b', 'a', 'a'] = false := by
  have hclear : ∀ e ∈ prefixed.edges, ∀ q ∈ prefixed.states.toList,
      prefixed.display q ≠ transitionText e.2.1 (prefixed.display e.2.2) := by decide
  obtain ⟨b, hb, -, -, heq⟩ := accepts_toAutomaton_ofAutomaton (a := prefixed) rfl (by decide)
  have heq := heq fun q c r he ⟨p, hp, hname⟩ => hclear _ (Automaton.mem_edges.2 he) p hp hname
  exact ⟨b, hb, (heq _).trans (by decide), (heq _).trans (by decide)⟩

/-- The transition on `a` is written `aq`, which is the name of the other state. -/
def misread : Automaton where
  names := ["q", "aq"]
  alphabet := .ofSymbols ['a']
  states := .below 2
  initial := 0
  finals := .ofList [0]
  transitions := .ofList [(0, .ofList [(some 'a', .ofList [0])])]

/-- It is read back as a transition without a symbol, so a word is lost. -/
theorem reject_misread :
    misread.validate = .ok () ∧ misread.WellNamed ∧ misread.accepts ['a'] = true ∧
      (ofAutomaton misread).toAutomaton.toOption.map (·.accepts ['a']) = some false := by
  refine ⟨rfl, by decide, by decide, ?_⟩
  decide +kernel

end Grammar

end FiniteAutomata
