import FiniteAutomata.Proofs.Description.Contents
import FiniteAutomata.Proofs.Grammar.Duality

/-!
# The same automaton again

The grammar of an automaton whose states are all declared, in the order of their handles, lists their names in
that order. Where no transition is misread, each production is read back as the transition that it was written
for, and none asks for a further final state. The states, final states and transitions of the new automaton are
therefore the same by name, and its handles number the same names. Main theorem `toAutomaton_ofAutomaton`: it is
the same automaton.
-/
namespace FiniteAutomata

namespace Automaton

/-- The automaton is built by declaring states, and by final states and transitions between handles that were
given out, which are listed. -/
inductive Grown : Automaton → List Nat → Prop where
  | new (al : Alphabet) (name : String) : Grown (.new al name) [(Automaton.new al name).initial]
  | addState {a : Automaton} {hs : List Nat} (h : Grown a hs) (name : String) :
      Grown (a.addState name) (a.handle name :: hs)
  | addFinal {a : Automaton} {hs : List Nat} {q : Nat} (h : Grown a hs) (hq : q ∈ hs) :
      Grown (a.addFinal q) hs
  | addTransition {a : Automaton} {hs : List Nat} {q r : Nat} (h : Grown a hs) (hq : q ∈ hs)
      (label : Label) (hr : r ∈ hs) : Grown (a.addTransition q label r) hs

variable {a : Automaton} {hs : List Nat}

theorem Grown.assembled (h : a.Grown hs) : a.Assembled hs := by
  induction h with
  | new al name => exact .new al name
  | addState h name ih => exact ih.addState name
  | addFinal h hq ih => exact ih.addFinal hq
  | addTransition h hq label hr ih => exact ih.addTransition hq label hr

/-- All names are those of declared states. -/
theorem Grown.tidy (h : a.Grown hs) (hn : ∀ n ∈ a.names, n ≠ "") : a.Tidy a.names.length := by
  induction h with
  | new al name =>
    rw [new_eq] at hn ⊢
    have := tidy_new al (hn name (by simp))
    rwa [new_eq] at this
  | @addState a hs h name ih =>
    have hname : name ∈ (a.addState name).names := List.mem_of_getElem? (name?_handle a name)
    exact (ih fun n hm => hn n ((names_prefix_intern a name).subset hm)).addState (hn name hname)
  | addFinal h hq ih => exact (ih hn).addFinal _
  | addTransition h hq label hr ih => exact (ih hn).addTransition _ label _

theorem Tidy.wellNamed (h : a.Tidy a.names.length) : a.WellNamed := by
  refine ⟨fun q hq => h.display_ne_empty (h.mem_states.1 hq), fun p hp q hq e => ?_⟩
  have hlt := h.mem_states.1 hp
  have hnames := h.getElem?_names (h.mem_states.1 hq)
  rw [← e, ← h.getElem?_names hlt] at hnames
  exact ((List.getElem?_inj hlt h.nodup).1 hnames.symm)

end Automaton

namespace Grammar

variable {a : Automaton} {g : Grammar} {q r : Nat} {label : Label} {m n p : String}

/-! ## The non-terminals -/

theorem nonTerminals_foldl_addState {qs : List Nat} (h : g.Listed)
    (hn : (g.nonTerminals ++ qs.map a.display).Nodup) :
    (qs.foldl (addState a) g).nonTerminals = g.nonTerminals ++ qs.map a.display := by
  induction qs generalizing g with
  | nil => simp
  | cons q qs ih =>
    have hd : ¬ g.isDefined (a.display q) = true := by
      rw [h.defined]
      intro hm
      exact (List.nodup_append.1 hn).2.2 _ hm _ (by simp) rfl
    have he : (addState a g q).nonTerminals = g.nonTerminals ++ [a.display q] := by
      rw [nonTerminals_addState, if_neg hd]
    rw [List.foldl_cons, ih (h.addState a q) (by rwa [he, List.append_assoc]), he, List.append_assoc]
    rfl

/-- The names become non-terminals in the order of their handles. -/
theorem nonTerminals_ofAutomaton (h : a.Tidy a.names.length) (hi : a.initial < a.names.length) :
    (ofAutomaton a).nonTerminals = a.names := by
  -- the state of the first handle is the initial one, whose name is a non-terminal from the start
  obtain ⟨qs, hqs⟩ : ∃ qs, a.states.toList = a.initial :: qs := by
    rw [h.states, h.initial]
    obtain ⟨k, hk⟩ := Nat.exists_eq_succ_of_ne_zero (Nat.ne_of_gt (Nat.zero_lt_of_lt hi))
    rw [hk]
    exact ⟨_, List.range_succ_eq_map⟩
  have hnames : a.display a.initial :: qs.map a.display = a.names := by
    rw [← List.map_cons, ← hqs, h.map_display, List.take_length]
  have hnew := listed_new a.alphabet (a.display a.initial)
  have hfirst : (addState a (new a.alphabet (a.display a.initial)) a.initial).nonTerminals =
      [a.display a.initial] := by
    rw [nonTerminals_addState, if_pos ((hnew.defined _).2 (List.mem_singleton.2 rfl))]
    rfl
  have hnodup : ([a.display a.initial] ++ qs.map a.display).Nodup := by
    rw [List.singleton_append, hnames]
    exact h.nodup
  rw [ofAutomaton, hqs, List.foldl_cons, nonTerminals_foldl_addState (hnew.addState a _) (by rwa [hfirst]),
    hfirst, List.singleton_append, hnames]

/-! ## The rules -/

/-- The rule that a transition is written for. -/
def moveRule : Label → String → Rule
  | none, target => .unit target
  | some c, target => .next c target

theorem move?_moveRule (s : String) (label : Label) (n : String) :
    (moveRule label n).move? s = some (label, n) := by
  cases label <;> rfl

theorem moveRule_ne_last (label : Label) (n : String) (c : Char) : moveRule label n ≠ .last c := by
  cases label <;> exact nofun

/-- What of an automaton its grammar can be read back from. -/
structure Legible (a : Automaton) : Prop where
  tidy : a.Tidy a.names.length
  named : a.Named
  symbols : ∀ q c r, a.HasEdge q (some c) r → a.alphabet.contains c = true
  clear : ∀ q c r, a.HasEdge q (some c) r → ¬ a.Misread c r

section Legible
variable (h : Legible a)
include h

theorem Legible.mem_states : q ∈ a.states ↔ q < a.names.length := h.tidy.mem_states

theorem Legible.initial_mem : a.initial ∈ a.states := h.mem_states.2 h.named.initial

/-- The production of a transition is read as the rule of the transition. -/
theorem Legible.rule_transition (he : a.HasEdge q label r) :
    (ofAutomaton a).rule m (transitionText label (a.display r)) = .ok (moveRule label (a.display r)) := by
  have hr := h.mem_states.2 (h.named.edges q label r he).2
  cases label with
  | none => exact rule_of_isDefined ((isDefined_iff_of_initial h.initial_mem).2 ⟨r, hr, rfl⟩)
  | some c =>
    exact rule_next_ofAutomaton h.initial_mem h.tidy.wellNamed hr (h.symbols q c r he) (h.clear q c r he)

/-- A production is that of a transition, or the empty one of a final state. -/
theorem Legible.mem_pairs_iff : (m, p) ∈ (ofAutomaton a).pairs ↔ ∃ q, a.name? q = some m ∧
    ((∃ label r, a.HasEdge q label r ∧ p = transitionText label (a.display r)) ∨ q ∈ a.finals ∧ p = "") := by
  rw [mem_pairs, mem_productionsOf_ofAutomaton]
  simp only [mem_stateProductions, ← and_assoc]
  refine exists_congr fun q => and_congr_left fun _ => ?_
  constructor
  · rintro ⟨hq, hm⟩
    exact (Automaton.name?_eq_some_iff (h.named.states q hq)).2 hm
  · intro hm
    have hlt := (List.getElem?_eq_some_iff.1 hm).1
    exact ⟨h.mem_states.2 hlt, (Automaton.name?_eq_some_iff hlt).1 hm⟩

theorem Legible.rule_cases (hp : (m, p) ∈ (ofAutomaton a).pairs) :
    (∃ label n, (ofAutomaton a).rule m p = .ok (moveRule label n)) ∨ (ofAutomaton a).rule m p = .ok .stop := by
  obtain ⟨q, -, ⟨label, r, he, rfl⟩ | ⟨-, rfl⟩⟩ := h.mem_pairs_iff.1 hp
  · exact .inl ⟨label, a.display r, h.rule_transition he⟩
  · exact .inr (rule_empty_ofAutomaton h.initial_mem h.tidy.wellNamed)

/-- The productions say the transitions of the automaton. -/
theorem Legible.saysMove_iff : (∃ p, (m, p) ∈ (ofAutomaton a).pairs ∧ (ofAutomaton a).SaysMove m p label n) ↔
    a.HasMove m label n := by
  constructor
  · rintro ⟨p, hp, rule, hrule, hmove⟩
    obtain ⟨q, hq, ⟨l, r, he, rfl⟩ | ⟨-, rfl⟩⟩ := h.mem_pairs_iff.1 hp
    · rw [h.rule_transition he] at hrule
      rw [← Except.ok.inj hrule, move?_moveRule] at hmove
      obtain ⟨rfl, rfl⟩ := Prod.mk.inj (Option.some.inj hmove)
      exact ⟨q, r, he, hq, Automaton.name?_eq_display (h.named.edges q l r he).2⟩
    · rw [rule_empty_ofAutomaton h.initial_mem h.tidy.wellNamed] at hrule
      cases hrule
      cases hmove
  · rintro ⟨q, r, he, hq, hr⟩
    rw [← Automaton.display_of_getElem? hr]
    exact ⟨_, h.mem_pairs_iff.2 ⟨q, hq, .inl ⟨label, r, he, rfl⟩⟩, _, h.rule_transition he,
      move?_moveRule _ label _⟩

/-- The empty productions are those of the final states. -/
theorem Legible.stop_iff : (∃ p, (m, p) ∈ (ofAutomaton a).pairs ∧ (ofAutomaton a).rule m p = .ok .stop) ↔
    a.HasFinal m := by
  constructor
  · rintro ⟨p, hp, hrule⟩
    obtain ⟨-, rfl⟩ := rule_eq_ok.1 hrule
    obtain ⟨q, hq, ⟨label, r, he, hempty⟩ | ⟨hf, -⟩⟩ := h.mem_pairs_iff.1 hp
    · rw [hempty, h.rule_transition he] at hrule
      cases label <;> cases hrule
    · exact ⟨q, hf, hq⟩
  · rintro ⟨q, hf, hq⟩
    exact ⟨"", h.mem_pairs_iff.2 ⟨q, hq, .inr ⟨hf, rfl⟩⟩,
      rule_empty_ofAutomaton h.initial_mem h.tidy.wellNamed⟩

end Legible

/-! ## No further final state -/

/-- Only a terminal alone asks for the sink. -/
theorem Conversion.sink_carryOut {b : Conversion} {source : Nat} {r : Rule} (hb : b.sink = none)
    (hr : ∀ c, r ≠ .last c) : (b.carryOut source r).sink = none := by
  cases r with
  | unit target => exact hb
  | stop => exact hb
  | last c => exact absurd rfl (hr c)
  | next c target => exact hb

theorem Conversion.sink_addProductions {b b' : Conversion} {e : String × List String} (hb : b.sink = none)
    (hr : ∀ p ∈ e.2, ∀ c, g.rule e.1 p ≠ .ok (.last c)) (h : addProductions g b e = .ok b') :
    b'.sink = none := by
  unfold addProductions at h
  split at h
  · cases h
  · refine foldlM_induction (motive := fun _ c => c.sink = none) h hb fun _ p c c' hp hc hstep => ?_
    rw [addProduction_eq] at hstep
    obtain ⟨r, hrule, rfl⟩ := map_eq_ok.1 hstep
    exact sink_carryOut hc fun d hd => hr p hp d (hd ▸ hrule)

theorem Conversion.sink_foldlM {b b' : Conversion} (hb : b.sink = none)
    (hr : ∀ m p, (m, p) ∈ g.pairs → ∀ c, g.rule m p ≠ .ok (.last c))
    (h : g.productions.entries.foldlM (addProductions g) b = .ok b') : b'.sink = none := by
  refine foldlM_induction (motive := fun _ c => c.sink = none) h hb fun _ e c c' he hc hstep => ?_
  refine sink_addProductions hc (fun p hp => hr e.1 p (mem_pairs.2 ?_)) hstep
  exact mem_productionsOf.2 ⟨e, he, rfl, hp⟩

/-! ## The main theorem -/

theorem Legible.toAutomaton_eq (h : Legible a) (hf : a.Filled) : (ofAutomaton a).toAutomaton = .ok a := by
  have hl := listed_ofAutomaton a
  have hnames := nonTerminals_ofAutomaton h.tidy h.named.initial
  obtain ⟨a', ha'⟩ := (exists_toAutomaton_iff hl).2 fun m p hp => by
    rcases h.rule_cases hp with ⟨label, n, hrule⟩ | hrule <;> exact ⟨_, hrule⟩
  obtain ⟨b, hb, hba⟩ := bind_eq_ok.1 ha'
  have P := Conversion.progress_foldlM hl hb
  have hsink : b.sink = none := Conversion.sink_foldlM (g := ofAutomaton a) rfl (fun m p hp c => by
    rcases h.rule_cases hp with ⟨label, n, hrule⟩ | hrule <;> rw [hrule]
    · exact fun e => moveRule_ne_last label n c (Except.ok.inj e)
    · exact nofun) hb
  have hbnames : b.automaton.names = a.names := by
    rcases P.names with ⟨-, hn⟩ | ⟨hs, -⟩
    · rw [hn, hnames]
    · rw [hsink] at hs
      cases hs
  have hsame : b.automaton.SameByName a := by
    have hname : ∀ q, b.automaton.name? q = a.name? q := by
      intro q
      rw [Automaton.name?, hbnames, Automaton.name?]
    have hstates : b.automaton.states = a.states := by rw [P.states, hbnames, h.tidy.states]
    refine ⟨?_, fun n => ?_, fun n => ?_, fun m label n => ?_⟩
    · rw [hname, P.initial, h.tidy.initial]
    · simp only [Automaton.HasState, hname, hstates]
    · rw [P.finals, hsink]
      simpa using h.stop_iff
    · rw [P.moves, h.saysMove_iff]
  rw [ha', ← Except.ok.inj hba, hsame.eq P.named h.named P.filled hf hbnames
    (P.alphabet.trans (ofAutomaton_eq a).1)]

/-- **An automaton that was built with its handles is the automaton of its grammar**, where its names are not
empty, its symbols are in its alphabet, and no transition is misread. -/
theorem toAutomaton_ofAutomaton {hs : List Nat} (h : a.Grown hs) (hn : ∀ n ∈ a.names, n ≠ "")
    (hl : ∀ q c r, a.HasEdge q (some c) r → a.alphabet.contains c = true)
    (hc : ∀ q c r, a.HasEdge q (some c) r → ¬ a.Misread c r) : (ofAutomaton a).toAutomaton = .ok a :=
  Legible.toAutomaton_eq ⟨h.tidy hn, h.assembled.named, hl, hc⟩ h.assembled.filled

/-- The names do not ascend with the handles, and one is that of the final state that terminals alone would
lead to. -/
def unordered : Automaton :=
  let a := ((Automaton.new (.ofSymbols ['b', 'F']) "q").addState "F").addState "b"
  (((a.addFinal 1).addTransition 0 none 2).addTransition 2 (some 'F') 1).addTransition 1 (some 'b') 0

theorem toAutomaton_ofAutomaton_unordered :
    unordered.names = ["q", "F", "b"] ∧ (ofAutomaton unordered).toAutomaton = .ok unordered := by
  have hstates := ((Automaton.Grown.new (.ofSymbols ['b', 'F']) "q").addState "F").addState "b"
  have hfinal := hstates.addFinal (q := 1) (by decide)
  have hepsilon := hfinal.addTransition (q := 0) (r := 2) (by decide) none (by decide)
  have hmove := hepsilon.addTransition (q := 2) (r := 1) (by decide) (some 'F') (by decide)
  have hgrown : unordered.Grown _ := hmove.addTransition (q := 1) (r := 0) (by decide) (some 'b') (by decide)
  have hsymbols : ∀ e ∈ unordered.edges, e.2.1.all unordered.alphabet.contains = true := by decide
  have hclear : ∀ e ∈ unordered.edges, ∀ q ∈ unordered.states.toList,
      e.2.1.all (fun c => unordered.display q != String.singleton c ++ unordered.display e.2.2) = true := by
    decide
  refine ⟨rfl, toAutomaton_ofAutomaton hgrown (by decide) (fun q c r he => ?_) fun q c r he hm => ?_⟩
  · exact hsymbols _ (Automaton.mem_edges.2 he)
  · obtain ⟨p, hp, hname⟩ := hm
    exact bne_iff_ne.1 (hclear _ (Automaton.mem_edges.2 he) p hp) hname

end Grammar

end FiniteAutomata
