import FiniteAutomata.Proofs.Automaton.Named
import FiniteAutomata.Proofs.Except
import FiniteAutomata.Proofs.Description.Rebuilding
import FiniteAutomata.Proofs.Grammar.Building

/-!
# What a grammar is converted to

A production is first read as a rule, which does not depend on the automaton under construction, and the
rule is then carried out. `Conversion.Progress` says what the automaton is after some productions: its
states are the non-terminals and at most one more, and its transitions and final states are those of the
rules. Main statement: so it is after all productions (`toAutomaton_progress`).
-/
namespace FiniteAutomata.Grammar

/-! ## Rules -/

/-- What a production says. -/
inductive Rule where
  | unit (target : String)
  | stop
  | last (c : Char)
  | next (c : Char) (target : String)

namespace Rule

/-- The label and the target of the transition of a rule. -/
def move? (sink : String) : Rule → Option (Label × String)
  | unit target => some (none, target)
  | stop => none
  | last c => some (some c, sink)
  | next c target => some (some c, target)

/-- The text of the production says the rule. -/
def Says (g : Grammar) (production : String) : Rule → Prop
  | unit target => g.isDefined production = true ∧ production = target
  | stop => g.isDefined production = false ∧ production = ""
  | last c => g.isDefined production = false ∧ production = String.singleton c ∧
      g.terminals.contains c = true
  | next c target => g.isDefined production = false ∧ production = String.singleton c ++ target ∧
      target ≠ "" ∧ g.terminals.contains c = true ∧ g.isDefined target = true

end Rule

/-- The rule that a production is read as. -/
def rule (g : Grammar) (name production : String) : Except GrammarError Rule :=
  if g.isDefined production then .ok (.unit production)
  else
    match production.toList with
    | [] => .ok .stop
    | c :: cs =>
      if g.terminals.contains c then
        if cs.isEmpty then .ok (.last c)
        else if g.isDefined (String.ofList cs) then .ok (.next c (String.ofList cs))
        else .error (.undefinedNonTerminal (String.ofList cs))
      else .error (.notRightLinear name production)

/-- Carries out the rule of a production of the state. -/
def Conversion.carryOut (b : Conversion) (source : Nat) : Rule → Conversion
  | .unit target => b.addMove source none target
  | .stop => { b with automaton := b.automaton.addFinal source }
  | .last c => b.addLastMove source c
  | .next c target => b.addMove source (some c) target

variable {g : Grammar} {name production : String} {r : Rule}

/-- A production is added as the rule that it is read as. -/
theorem Conversion.addProduction_eq (g : Grammar) (name : String) (source : Nat) (b : Conversion)
    (production : String) :
    addProduction g name source b production = b.carryOut source <$> g.rule name production := by
  unfold addProduction rule
  by_cases hd : g.isDefined production = true
  · rw [if_pos hd, if_pos hd]
    rfl
  · rw [if_neg hd, if_neg hd]
    cases production.toList with
    | nil => rfl
    | cons c cs =>
      simp only
      split
      · split
        · rfl
        · split <;> rfl
      · rfl

/-! ## Texts of rules -/

theorem singleton_eq_singleton_append {c d : Char} {s : String} :
    String.singleton c = String.singleton d ++ s ↔ c = d ∧ s = "" := by
  have hc : String.singleton c = String.singleton c ++ "" := String.append_empty.symm
  rw [hc, String.singleton_append_inj, eq_comm (a := "")]

theorem singleton_append_ne_empty (c : Char) (s : String) : String.singleton c ++ s ≠ "" :=
  fun h => String.singleton_ne_empty (String.append_eq_empty_iff.1 h).1

theorem eq_empty_or_singleton_append (s : String) : s = "" ∨ ∃ c t, s = String.singleton c ++ t := by
  cases h : s.toList with
  | nil => exact .inl (String.toList_eq_nil_iff.1 h)
  | cons c cs =>
    refine .inr ⟨c, String.ofList cs, String.toList_inj.1 ?_⟩
    rw [h, String.toList_append, String.toList_singleton, String.toList_ofList, List.singleton_append]

theorem rule_of_isDefined (hd : g.isDefined production = true) :
    g.rule name production = .ok (.unit production) := by
  rw [rule, if_pos hd]

theorem rule_empty (hd : g.isDefined "" = false) : g.rule name "" = .ok .stop := by
  rw [rule, hd]
  rfl

theorem rule_singleton_append {c : Char} {s : String}
    (hd : g.isDefined (String.singleton c ++ s) = false) :
    g.rule name (String.singleton c ++ s) =
      if g.terminals.contains c then
        if s = "" then .ok (.last c)
        else if g.isDefined s then .ok (.next c s) else .error (.undefinedNonTerminal s)
      else .error (.notRightLinear name (String.singleton c ++ s)) := by
  have hlist : (String.singleton c ++ s).toList = c :: s.toList := by
    rw [String.toList_append, String.toList_singleton, List.singleton_append]
  have hempty : s.toList.isEmpty = true ↔ s = "" := by
    rw [List.isEmpty_iff, String.toList_eq_nil_iff]
  rw [rule, hd, hlist]
  simp only [Bool.false_eq_true, if_false, String.ofList_toList, hempty]

theorem says_of_rule (h : g.rule name production = .ok r) : r.Says g production := by
  by_cases hd : g.isDefined production = true
  · rw [rule_of_isDefined hd] at h
    obtain rfl := Except.ok.inj h
    exact ⟨hd, rfl⟩
  · rw [Bool.not_eq_true] at hd
    rcases eq_empty_or_singleton_append production with rfl | ⟨c, s, rfl⟩
    · rw [rule_empty hd] at h
      obtain rfl := Except.ok.inj h
      exact ⟨hd, rfl⟩
    · rw [rule_singleton_append hd] at h
      split at h
      · rename_i hc
        split at h
        · rename_i hs
          subst hs
          obtain rfl := Except.ok.inj h
          exact ⟨hd, String.append_empty, hc⟩
        · rename_i hs
          split at h
          · rename_i ht
            obtain rfl := Except.ok.inj h
            exact ⟨hd, rfl, hs, hc, ht⟩
          · cases h
      · cases h

theorem Rule.Says.rule_eq (h : r.Says g production) : g.rule name production = .ok r := by
  cases r with
  | unit target =>
    obtain ⟨hd, rfl⟩ := h
    exact rule_of_isDefined hd
  | stop =>
    obtain ⟨hd, rfl⟩ := h
    exact rule_empty hd
  | last c =>
    obtain ⟨hd, rfl, hc⟩ := h
    have hs : String.singleton c ++ "" = String.singleton c := String.append_empty
    rw [← hs] at hd
    rw [← hs, rule_singleton_append hd, if_pos hc, if_pos rfl]
  | next c target =>
    obtain ⟨hd, rfl, hne, hc, ht⟩ := h
    rw [rule_singleton_append hd, if_pos hc, if_neg hne, if_pos ht]

/-- **A production is read as the rule that it says.** -/
theorem rule_eq_ok : g.rule name production = .ok r ↔ r.Says g production :=
  ⟨says_of_rule, fun h => h.rule_eq⟩

/-! ## The automaton under construction -/

/-- The name of the state that productions of a symbol alone lead to. -/
def sink (g : Grammar) : String := unusedName g.nonTerminals Conversion.sinkName

theorem sink_not_mem (g : Grammar) : g.sink ∉ g.nonTerminals := unusedName_not_mem _ _

/-- The production of the first name says a transition to the second. -/
def SaysMove (g : Grammar) (m production : String) (label : Label) (n : String) : Prop :=
  ∃ r, g.rule m production = .ok r ∧ r.move? g.sink = some (label, n)

namespace Conversion

/-- What the automaton is after some productions. -/
structure Progress (g : Grammar) (done : List (String × String)) (b : Conversion) : Prop where
  named : b.automaton.Named
  filled : b.automaton.Filled
  alphabet : b.automaton.alphabet = g.terminals
  initial : b.automaton.initial = 0
  states : b.automaton.states = .below b.automaton.names.length
  names : b.sink = none ∧ b.automaton.names = g.nonTerminals ∨
    b.sink = some g.nonTerminals.length ∧ b.automaton.names = g.nonTerminals ++ [g.sink]
  finals : ∀ n, b.automaton.HasFinal n ↔
    (∃ p, (n, p) ∈ done ∧ g.rule n p = .ok .stop) ∨ n = g.sink ∧ b.sink.isSome = true
  moves : ∀ m label n, b.automaton.HasMove m label n ↔ ∃ p, (m, p) ∈ done ∧ g.SaysMove m p label n
  rules : ∀ m p, (m, p) ∈ done → ∃ r, g.rule m p = .ok r

variable {done : List (String × String)} {b b' : Conversion} {source target : Nat} {m n p : String}
  {label : Label}

theorem exists_mem_concat (P : String → String → Prop) :
    (∃ q, (n, q) ∈ done ++ [(m, p)] ∧ P n q) ↔ (∃ q, (n, q) ∈ done ∧ P n q) ∨ n = m ∧ P m p := by
  simp only [List.mem_append, List.mem_singleton, Prod.mk.injEq]
  grind

theorem Progress.rules_concat (h : Progress g done b) (hr : g.rule m p = .ok r) :
    ∀ n q, (n, q) ∈ done ++ [(m, p)] → ∃ r, g.rule n q = .ok r := by
  intro n q hq
  rcases List.mem_append.1 hq with hq | hq
  · exact h.rules n q hq
  · obtain ⟨rfl, rfl⟩ := Prod.mk.inj (List.mem_singleton.1 hq)
    exact ⟨r, hr⟩

/-- The non-terminals keep their places. -/
theorem Progress.name?_source (h : Progress g done b) (hm : g.nonTerminals[source]? = some m) :
    b.automaton.name? source = some m := by
  have hlt : source < g.nonTerminals.length := (List.getElem?_eq_some_iff.1 hm).1
  unfold Automaton.name?
  rcases h.names with ⟨-, hn⟩ | ⟨-, hn⟩
  · rw [hn, hm]
  · rw [hn, List.getElem?_append_left hlt, hm]

theorem Progress.state?_of_mem (h : Progress g done b) (hn : n ∈ g.nonTerminals) :
    ∃ q, g.nonTerminals[q]? = some n ∧ b.automaton.state? n = some q ∧ q ∈ b.automaton.states := by
  obtain ⟨q, hq⟩ := List.mem_iff_getElem?.1 hn
  have hname := h.name?_source hq
  refine ⟨q, hq, (Automaton.state?_eq_some_iff h.named.nodup).2 hname, ?_⟩
  rw [h.states, StateSet.mem_below]
  exact (List.getElem?_eq_some_iff.1 hname).1

theorem Progress.addTransition (h : Progress g done b) (hs : b.automaton.name? source = some m)
    (ht : b.automaton.name? target = some n) (hr : g.rule m p = .ok r)
    (hmove : r.move? g.sink = some (label, n)) :
    Progress g (done ++ [(m, p)]) { b with automaton := b.automaton.addTransition source label target } := by
  have hne : g.rule m p ≠ .ok .stop := by
    rw [hr]
    intro e
    rw [Except.ok.inj e] at hmove
    cases hmove
  have hsays : ∀ l k, g.SaysMove m p l k ↔ l = label ∧ k = n := by
    intro l k
    unfold SaysMove
    simp [hr, hmove, eq_comm]
  refine ⟨h.named.addTransition (List.getElem?_eq_some_iff.1 hs).1 (List.getElem?_eq_some_iff.1 ht).1 label,
    h.filled.addTransition _ _ _, h.alphabet, h.initial, h.states, h.names, fun k => ?_, fun k l k' => ?_,
    h.rules_concat hr⟩
  · refine (h.finals k).trans (or_congr_left ?_)
    rw [exists_mem_concat fun n q => g.rule n q = .ok .stop, or_iff_left fun hk : k = m ∧ _ => hne hk.2]
  · rw [Automaton.hasMove_addTransition hs ht, h.moves,
      exists_mem_concat fun n q => g.SaysMove n q l k', hsays]

theorem Progress.addFinal (h : Progress g done b) (hs : b.automaton.name? source = some m)
    (hr : g.rule m p = .ok .stop) :
    Progress g (done ++ [(m, p)]) { b with automaton := b.automaton.addFinal source } := by
  have hsays : ∀ l k, ¬ g.SaysMove m p l k := by
    rintro l k ⟨r, hr', hmove⟩
    rw [hr] at hr'
    rw [← Except.ok.inj hr'] at hmove
    cases hmove
  refine ⟨h.named.addFinal (List.getElem?_eq_some_iff.1 hs).1, h.filled.congr rfl, h.alphabet, h.initial,
    h.states, h.names, fun k => ?_, fun k l k' => ?_, h.rules_concat hr⟩
  · rw [Automaton.hasFinal_addFinal hs, h.finals,
      exists_mem_concat fun n q => g.rule n q = .ok .stop, and_iff_left (a := k = m) hr, or_right_comm]
  · refine (h.moves k l k').trans ?_
    rw [exists_mem_concat fun n q => g.SaysMove n q l k', or_iff_left fun hk : k = m ∧ _ => hsays l k' hk.2]

/-- Providing the sink adds its name after the non-terminals. -/
theorem Progress.withSink (h : Progress g done b) :
    Progress g done b.withSink.2 ∧ b.withSink.2.automaton.name? b.withSink.1 = some g.sink := by
  unfold Conversion.withSink
  rcases h.names with ⟨hs, hn⟩ | ⟨hs, hn⟩
  · have hname : unusedName b.automaton.names sinkName = g.sink := by
      rw [hn]
      rfl
    have hm : g.sink ∉ b.automaton.names := hn ▸ g.sink_not_mem
    have hq : (b.automaton.addState g.sink).name? (b.automaton.handle g.sink) = some g.sink :=
      Automaton.name?_handle b.automaton g.sink
    rw [hs]
    simp only [hname]
    refine ⟨⟨(h.named.addState g.sink).addFinal (List.getElem?_eq_some_iff.1 hq).1, ?_, ?_, ?_, ?_, ?_,
      fun k => ?_, fun k l k' => ?_, h.rules⟩, hq⟩
    · exact h.filled.congr (by rw [Automaton.addState_of_not_mem hm]; rfl)
    · rw [Automaton.addState_of_not_mem hm]
      exact h.alphabet
    · rw [Automaton.addState_of_not_mem hm]
      exact h.initial
    · rw [Automaton.addState_of_not_mem hm]
      show b.automaton.states.insert _ = .below (b.automaton.names ++ [g.sink]).length
      rw [h.states, StateSet.insert_below, List.length_append, List.length_singleton]
    · rw [Automaton.addState_of_not_mem hm, Automaton.handle_of_not_mem hm]
      refine .inr ⟨by rw [hn], ?_⟩
      show b.automaton.names ++ [g.sink] = _
      rw [hn]
    · have hold : (b.automaton.addState g.sink).HasFinal k ↔ b.automaton.HasFinal k :=
        h.named.hasFinal_intern
      rw [Automaton.hasFinal_addFinal hq, hold, h.finals, hs]
      simp
    · exact h.named.hasMove_intern.trans (h.moves k l k')
  · rw [hs]
    refine ⟨h, ?_⟩
    show b.automaton.names[_]? = _
    rw [hn, List.getElem?_append_right (Nat.le_refl _), Nat.sub_self]
    rfl

theorem Progress.addMove (hl : g.Listed) (h : Progress g done b) (hs : g.nonTerminals[source]? = some m)
    (hn : g.isDefined n = true) (hr : g.rule m p = .ok r) (hmove : r.move? g.sink = some (label, n)) :
    Progress g (done ++ [(m, p)]) (b.addMove source label n) := by
  obtain ⟨q, -, hq, hmem⟩ := h.state?_of_mem ((hl.defined n).1 hn)
  rw [Conversion.addMove, Automaton.addState_of_declared hq hmem, Automaton.handle_of_state? hq]
  exact h.addTransition (h.name?_source hs) (Automaton.name?_of_state? hq) hr hmove

/-- **Carrying out a rule keeps track of it.** -/
theorem Progress.carryOut (hl : g.Listed) (h : Progress g done b) (hs : g.nonTerminals[source]? = some m)
    (hr : g.rule m p = .ok r) : Progress g (done ++ [(m, p)]) (b.carryOut source r) := by
  have hsays := rule_eq_ok.1 hr
  cases r with
  | unit n =>
    obtain ⟨hd, rfl⟩ := hsays
    exact h.addMove hl hs hd hr rfl
  | stop => exact h.addFinal (h.name?_source hs) hr
  | last c =>
    obtain ⟨hsink, hq⟩ := h.withSink
    exact hsink.addTransition (hsink.name?_source hs) hq hr rfl
  | next c n => exact h.addMove hl hs hsays.2.2.2.2 hr rfl

theorem Progress.addProductions (hl : g.Listed) (h : Progress g done b) {e : String × List String}
    (he : e.1 ∈ g.nonTerminals) (h' : addProductions g b e = .ok b') :
    Progress g (done ++ e.2.map (e.1, ·)) b' := by
  obtain ⟨source, hs, hstate, -⟩ := h.state?_of_mem he
  unfold Conversion.addProductions at h'
  rw [hstate] at h'
  refine foldlM_induction (motive := fun ps c => Progress g (done ++ ps.map (e.1, ·)) c) h' ?_ ?_
  · rwa [List.map_nil, List.append_nil]
  · intro ps p c c' _ hc hstep
    rw [addProduction_eq] at hstep
    obtain ⟨r, hr, rfl⟩ := map_eq_ok.1 hstep
    have := hc.carryOut hl hs hr
    rwa [List.append_assoc, ← List.map_singleton, ← List.map_append] at this

theorem Progress.exists_addProductions (hl : g.Listed) (h : Progress g done b) {e : String × List String}
    (he : e.1 ∈ g.nonTerminals) (hr : ∀ p ∈ e.2, ∃ r, g.rule e.1 p = .ok r) :
    ∃ b', Conversion.addProductions g b e = .ok b' := by
  obtain ⟨source, hs, hstate, -⟩ := h.state?_of_mem he
  unfold Conversion.addProductions
  rw [hstate]
  have hstep : ∀ c p, p ∈ e.2 → (∃ done, Progress g done c) →
      ∃ c', addProduction g e.1 source c p = .ok c' ∧ ∃ done, Progress g done c' := by
    rintro c p hp ⟨done, hc⟩
    obtain ⟨r, hr⟩ := hr p hp
    exact ⟨c.carryOut source r, by rw [addProduction_eq, hr]; rfl, _, hc.carryOut hl hs hr⟩
  obtain ⟨c, hc, -⟩ := foldlM_eq_ok ⟨done, h⟩ hstep
  exact ⟨c, hc⟩

theorem progress_start (hl : g.Listed) :
    Progress g [] { automaton := g.nonTerminals.foldl Automaton.addState (.new g.terminals g.start) } := by
  obtain ⟨ns, hns⟩ := hl.start
  have hstart := Automaton.foldl_addState_new (hns ▸ hl.nodup) g.terminals
  rw [← hns] at hstart
  rw [hstart]
  have hedge : ∀ q l k, ¬ Automaton.HasEdge
      ⟨g.nonTerminals, g.terminals, .below g.nonTerminals.length, 0, ∅, ∅⟩ q l k := by
    rintro q l k ⟨targets, ht, -⟩
    cases ht
  refine ⟨⟨hl.nodup, ?_, fun q hq => StateSet.mem_below.1 hq, fun q hq => ?_,
    fun q l k he => absurd he (hedge q l k)⟩, Automaton.filled_of_transitions rfl, rfl, rfl, rfl, .inl ⟨rfl, rfl⟩,
    fun k => ?_, fun k l k' => ?_, fun k p hp => ?_⟩
  · rw [hns]
    exact Nat.succ_pos _
  · cases hq
  · refine iff_of_false ?_ (by simp)
    rintro ⟨q, hq, -⟩
    cases hq
  · refine iff_of_false ?_ (by simp)
    rintro ⟨q, q', he, -⟩
    exact hedge q l q' he
  · cases hp

end Conversion

/-- The non-terminals with their productions, in the order in which they are visited. -/
def pairs (g : Grammar) : List (String × String) := g.productions.entries.flatMap fun e => e.2.map (e.1, ·)

theorem mem_pairs {m p : String} : (m, p) ∈ g.pairs ↔ p ∈ g.productionsOf m := by
  rw [mem_productionsOf, pairs, List.mem_flatMap]
  refine exists_congr fun e => and_congr_right fun _ => ?_
  rw [List.mem_map]
  constructor
  · rintro ⟨q, hq, h⟩
    obtain ⟨rfl, rfl⟩ := Prod.mk.inj h
    exact ⟨rfl, hq⟩
  · rintro ⟨rfl, hp⟩
    exact ⟨p, hp, rfl⟩

/-- Adding the productions of some non-terminals keeps track of their rules. -/
theorem Conversion.progress_of_foldlM (hl : g.Listed) {es : List (String × List String)} {b : Conversion}
    (hes : es ⊆ g.productions.entries)
    (hb : es.foldlM (Conversion.addProductions g)
      { automaton := g.nonTerminals.foldl Automaton.addState (.new g.terminals g.start) } = .ok b) :
    Progress g (es.flatMap fun e => e.2.map (e.1, ·)) b := by
  refine foldlM_induction
    (motive := fun es c => Progress g (es.flatMap fun e => e.2.map (e.1, ·)) c) hb
    (progress_start hl) fun es e c c' he hc hstep => ?_
  have hd : e.1 ∈ g.nonTerminals :=
    (hl.defined e.1).1 (Option.isSome_iff_exists.2 ⟨e.2, Table.get?_eq_some.2 (hes he)⟩)
  rw [List.flatMap_append, List.flatMap_singleton]
  exact hc.addProductions hl hd hstep

/-- Adding the productions of all non-terminals keeps track of all rules. -/
theorem Conversion.progress_foldlM (hl : g.Listed) {b : Conversion}
    (hb : g.productions.entries.foldlM (Conversion.addProductions g)
      { automaton := g.nonTerminals.foldl Automaton.addState (.new g.terminals g.start) } = .ok b) :
    Progress g g.pairs b :=
  progress_of_foldlM hl (List.Subset.refl _) hb

/-- **The automaton of a grammar is that of its rules.** -/
theorem toAutomaton_progress (hl : g.Listed) {a : Automaton} (h : g.toAutomaton = .ok a) :
    ∃ b, Conversion.Progress g g.pairs b ∧ b.automaton = a := by
  obtain ⟨b, hb, h⟩ := bind_eq_ok.1 h
  exact ⟨b, Conversion.progress_foldlM hl hb, Except.ok.inj h⟩

/-- **A grammar is converted exactly if each of its productions says a rule.** -/
theorem exists_toAutomaton_iff (hl : g.Listed) :
    (∃ a, g.toAutomaton = .ok a) ↔ ∀ m p, (m, p) ∈ g.pairs → ∃ r, g.rule m p = .ok r := by
  constructor
  · rintro ⟨a, ha⟩
    obtain ⟨b, hb, -⟩ := toAutomaton_progress hl ha
    exact hb.rules
  · intro h
    have hstep : ∀ b e, e ∈ g.productions.entries → (∃ done, Conversion.Progress g done b) →
        ∃ b', Conversion.addProductions g b e = .ok b' ∧ ∃ done, Conversion.Progress g done b' := by
      rintro b e he ⟨done, hb⟩
      have hd : e.1 ∈ g.nonTerminals :=
        (hl.defined e.1).1 (Option.isSome_iff_exists.2 ⟨e.2, Table.get?_eq_some.2 he⟩)
      have hr : ∀ p ∈ e.2, ∃ r, g.rule e.1 p = .ok r := fun p hp =>
        h e.1 p (mem_pairs.2 (mem_productionsOf.2 ⟨e, he, rfl, hp⟩))
      obtain ⟨b', hb'⟩ := hb.exists_addProductions hl hd hr
      exact ⟨b', hb', _, hb.addProductions hl hd hb'⟩
    obtain ⟨b, hb, -⟩ := foldlM_eq_ok ⟨[], Conversion.progress_start hl⟩ hstep
    exact ⟨b.automaton, by rw [toAutomaton, hb]; rfl⟩

end FiniteAutomata.Grammar
