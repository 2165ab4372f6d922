import FiniteAutomata.Proofs.Automaton.Paths
import FiniteAutomata.Proofs.Automaton.Tidy

/-!
# States by their names

Where the table of names repeats none and every handle in use has a name (`Named`), an automaton can be
told by the names of its states, whatever their handles (`SameByName`). Automata that are built with handles
that were given out before are of this kind (`Assembled.named`).
-/
namespace FiniteAutomata.Automaton

variable {a b : Automaton} {q r : Nat} {label : Label} {m n name : String} {hs : List Nat}

/-- The table repeats no name, and every handle in use has one. -/
structure Named (a : Automaton) : Prop where
  nodup : a.names.Nodup
  initial : a.initial < a.names.length
  states : ∀ q ∈ a.states, q < a.names.length
  finals : ∀ q ∈ a.finals, q < a.names.length
  edges : ∀ q label r, a.HasEdge q label r → q < a.names.length ∧ r < a.names.length

/-- The name is that of a declared state. -/
def HasState (a : Automaton) (n : String) : Prop := ∃ q ∈ a.states, a.name? q = some n

/-- The name is that of a final state. -/
def HasFinal (a : Automaton) (n : String) : Prop := ∃ q ∈ a.finals, a.name? q = some n

/-- A transition leads from a state of the first name to one of the second. -/
def HasMove (a : Automaton) (m : String) (label : Label) (n : String) : Prop :=
  ∃ q r, a.HasEdge q label r ∧ a.name? q = some m ∧ a.name? r = some n

/-- The automata have the same initial, declared and final states and transitions, told by name. -/
structure SameByName (a b : Automaton) : Prop where
  initial : a.name? a.initial = b.name? b.initial
  states : ∀ n, a.HasState n ↔ b.HasState n
  finals : ∀ n, a.HasFinal n ↔ b.HasFinal n
  moves : ∀ m label n, a.HasMove m label n ↔ b.HasMove m label n

/-- The word leads from a state of the name to a final one. -/
def Takes (a : Automaton) (n : String) : List Char → Prop
  | [] => a.HasFinal n
  | c :: w => ∃ m, a.HasMove n (some c) m ∧ a.Takes m w

/-! ## Names after interning -/

theorem intern_eq (a : Automaton) (name : String) :
    a.intern name = { a with names := (a.intern name).names } := by
  unfold intern
  split <;> rfl

/-- Interning a name declares nothing. -/
theorem states_intern (a : Automaton) (name : String) : (a.intern name).states = a.states := by
  rw [intern_eq]

theorem names_prefix_intern (a : Automaton) (name : String) : a.names <+: (a.intern name).names := by
  unfold intern
  split
  · exact List.prefix_refl _
  · exact List.prefix_append _ _

theorem length_le_intern (a : Automaton) (name : String) :
    a.names.length ≤ (a.intern name).names.length := (names_prefix_intern a name).length_le

theorem name?_intern (name : String) (hq : q < a.names.length) : (a.intern name).name? q = a.name? q := by
  obtain ⟨ns, hns⟩ := names_prefix_intern a name
  rw [name?, ← hns, List.getElem?_append_left hq, name?]

theorem name?_handle (a : Automaton) (name : String) :
    (a.intern name).name? (a.handle name) = some name := name?_of_state? (state?_intern a name)

theorem handle_lt (a : Automaton) (name : String) : a.handle name < (a.intern name).names.length :=
  (List.getElem?_eq_some_iff.1 (name?_handle a name)).1

theorem filled_new (al : Alphabet) (name : String) : (Automaton.new al name).Filled :=
  filled_of_transitions (by rw [new_eq])

theorem Filled.intern (h : a.Filled) (name : String) : (a.intern name).Filled := h.congr (by rw [intern_eq])

theorem Filled.addState (h : a.Filled) (name : String) : (a.addState name).Filled := (h.intern name).congr rfl

theorem hasEdge_intern : (a.intern name).HasEdge q label r ↔ a.HasEdge q label r := by
  rw [intern_eq]
  rfl

theorem name?_eq_display (h : q < a.names.length) : a.name? q = some (a.display q) := by
  rw [display, name?, List.getElem?_eq_getElem h, Option.getD_some]

/-! ## Operations by name -/

theorem named_new (al : Alphabet) (name : String) : (Automaton.new al name).Named := by
  rw [new_eq]
  refine ⟨by simp, Nat.one_pos, fun q hq => StateSet.mem_below.1 hq, fun q hq => ?_, fun q l r he => ?_⟩
  · cases hq
  · obtain ⟨targets, ht, -⟩ := he
    cases ht

theorem Named.intern (h : a.Named) (name : String) : (a.intern name).Named := by
  have hle := length_le_intern a name
  have hnodup := nodup_names_intern h.nodup name
  rw [intern_eq]
  refine ⟨hnodup, Nat.lt_of_lt_of_le h.initial hle, fun q hq => Nat.lt_of_lt_of_le (h.states q hq) hle,
    fun q hq => Nat.lt_of_lt_of_le (h.finals q hq) hle, fun q l r he => ?_⟩
  obtain ⟨hq, hr⟩ := h.edges q l r he
  exact ⟨Nat.lt_of_lt_of_le hq hle, Nat.lt_of_lt_of_le hr hle⟩

theorem Named.setInitial (h : a.Named) (hq : q < a.names.length) : (a.setInitial q).Named :=
  ⟨h.nodup, hq, h.states, h.finals, h.edges⟩

theorem Named.addFinal (h : a.Named) (hq : q < a.names.length) : (a.addFinal q).Named := by
  refine ⟨h.nodup, h.initial, h.states, fun p hp => ?_, h.edges⟩
  rcases StateSet.mem_insert.1 hp with rfl | hp
  · exact hq
  · exact h.finals p hp

theorem Named.addTransition (h : a.Named) (hq : q < a.names.length) (hr : r < a.names.length)
    (label : Label) : (a.addTransition q label r).Named := by
  refine ⟨h.nodup, h.initial, h.states, h.finals, fun p l s he => ?_⟩
  rcases hasEdge_addTransition.1 he with he | ⟨rfl, rfl, rfl⟩
  · exact h.edges p l s he
  · exact ⟨hq, hr⟩

theorem Named.addState (h : a.Named) (name : String) : (a.addState name).Named := by
  have hi := h.intern name
  refine ⟨hi.nodup, hi.initial, fun q hq => ?_, hi.finals, hi.edges⟩
  rcases StateSet.mem_insert.1 hq with rfl | hq
  · exact handle_lt a name
  · exact Nat.lt_of_lt_of_le (h.states q hq) (length_le_intern a name)

/-- A transition is a move between the names of its ends. -/
theorem Named.hasMove_display (h : a.Named) (he : a.HasEdge q label r) :
    a.HasMove (a.display q) label (a.display r) := by
  obtain ⟨hq, hr⟩ := h.edges q label r he
  exact ⟨q, r, he, name?_eq_display hq, name?_eq_display hr⟩

/-- Where every handle with a name is declared, so is all that the automaton refers to. -/
theorem Named.closed_of_states (h : a.Named) (hf : a.Filled) (hs : a.states = .below a.names.length) :
    a.Closed := by
  have hmem : ∀ q, q < a.names.length → q ∈ a.states := by
    intro q hq
    rwa [hs, StateSet.mem_below]
  refine ⟨hmem _ h.initial, fun q hq => hmem q (h.finals q hq), fun q row hr => ?_,
    fun q label targets ht r hr => hmem r (h.edges q label r ⟨targets, ht, hr⟩).2⟩
  obtain ⟨label, targets, hl⟩ := hf.rows q row hr
  have ht := targets?_eq_some.2 ⟨row, hr, hl⟩
  obtain ⟨r, hrt⟩ := hf.targets q label targets ht
  exact hmem q (h.edges q label r ⟨targets, ht, hrt⟩).1

theorem Named.hasState_intern (h : a.Named) : (a.intern name).HasState n ↔ a.HasState n := by
  unfold HasState
  rw [states_intern]
  refine exists_congr fun q => and_congr_right fun hq => ?_
  rw [name?_intern name (h.states q hq)]

theorem Named.hasFinal_intern (h : a.Named) : (a.intern name).HasFinal n ↔ a.HasFinal n := by
  have hs : (a.intern name).finals = a.finals := by rw [intern_eq]
  unfold HasFinal
  rw [hs]
  refine exists_congr fun q => and_congr_right fun hq => ?_
  rw [name?_intern name (h.finals q hq)]

theorem Named.hasMove_intern (h : a.Named) :
    (a.intern name).HasMove m label n ↔ a.HasMove m label n := by
  unfold HasMove
  refine exists_congr fun q => exists_congr fun r => ?_
  rw [hasEdge_intern]
  refine and_congr_right fun he => ?_
  obtain ⟨hq, hr⟩ := h.edges q label r he
  rw [name?_intern name hq, name?_intern name hr]

theorem Named.hasState_addState (h : a.Named) : (a.addState name).HasState n ↔ a.HasState n ∨ n = name := by
  have hinsert : (a.addState name).HasState n ↔
      (a.intern name).name? (a.handle name) = some n ∨ (a.intern name).HasState n := by
    unfold HasState
    rw [states_intern]
    simp only [Automaton.addState, StateSet.mem_insert, or_and_right, exists_or, exists_eq_left]
    rfl
  rw [hinsert, h.hasState_intern, name?_handle, Option.some.injEq, eq_comm, or_comm]

theorem hasFinal_addFinal (hn : a.name? q = some name) :
    (a.addFinal q).HasFinal n ↔ a.HasFinal n ∨ n = name := by
  have hinsert : (a.addFinal q).HasFinal n ↔ a.name? q = some n ∨ a.HasFinal n := by
    unfold HasFinal
    simp only [addFinal, StateSet.mem_insert, or_and_right, exists_or, exists_eq_left]
    rfl
  rw [hinsert, hn, Option.some.injEq, eq_comm, or_comm]

theorem hasMove_addTransition {l : Label} {m' n' : String} (hq : a.name? q = some m)
    (hr : a.name? r = some n) : (a.addTransition q label r).HasMove m' l n' ↔
      a.HasMove m' l n' ∨ m' = m ∧ l = label ∧ n' = n := by
  constructor
  · rintro ⟨p, s, he, hp, hs⟩
    rcases hasEdge_addTransition.1 he with he | ⟨rfl, rfl, rfl⟩
    · exact .inl ⟨p, s, he, hp, hs⟩
    · exact .inr ⟨Option.some.inj (hp.symm.trans hq), rfl, Option.some.inj (hs.symm.trans hr)⟩
  · rintro (⟨p, s, he, hp, hs⟩ | ⟨rfl, rfl, rfl⟩)
    · exact ⟨p, s, hasEdge_addTransition.2 (.inl he), hp, hs⟩
    · exact ⟨q, r, hasEdge_addTransition.2 (.inr ⟨rfl, rfl, rfl⟩), hq, hr⟩

/-! ## Words by name -/

theorem Named.eq_of_name? {p : Nat} (h : a.Named) (hp : a.name? p = some n) (hq : a.name? q = some n) :
    p = q :=
  (List.getElem?_inj (List.getElem?_eq_some_iff.1 hp).1 h.nodup).1 (hp.trans hq.symm)

theorem Named.takes_iff {w : List Char} (h : a.Named) (hq : a.name? q = some n) :
    a.Takes n w ↔ ∃ r ∈ a.finals, a.Leads q w r := by
  induction w generalizing q n with
  | nil =>
    constructor
    · rintro ⟨p, hp, hn⟩
      exact ⟨p, hp, leads_nil.2 (h.eq_of_name? hq hn)⟩
    · rintro ⟨r, hr, hl⟩
      obtain rfl := leads_nil.1 hl
      exact ⟨q, hr, hq⟩
  | cons c w ih =>
    constructor
    · rintro ⟨m, ⟨p, t, ⟨s, hs, ht⟩, hp, hm⟩, hw⟩
      obtain rfl := h.eq_of_name? hp hq
      obtain ⟨r, hr, hl⟩ := (ih hm).1 hw
      exact ⟨r, hr, .step hs ht hl⟩
    · rintro ⟨r, hr, hl⟩
      obtain ⟨s, t, hs, ht, hl⟩ := leads_cons.1 hl
      have he : a.HasEdge q (some c) t := ⟨s, hs, ht⟩
      have hm := name?_eq_display (h.edges q (some c) t he).2
      exact ⟨a.display t, ⟨q, t, he, hq, hm⟩, (ih hm).2 ⟨r, hr, hl⟩⟩

/-- **The accepted words are told by name.** -/
theorem Named.accepts_iff {w : List Char} (h : a.Named) (hi : a.name? a.initial = some n) :
    a.accepts w = true ↔ (∀ c ∈ w, a.alphabet.contains c = true) ∧ a.Takes n w := by
  rw [accepts, acceptsFrom_iff, h.takes_iff hi]
  simp

/-! ## The same table of names -/

theorem SameByName.symm (h : a.SameByName b) : b.SameByName a :=
  ⟨h.initial.symm, fun n => (h.states n).symm, fun n => (h.finals n).symm, fun m l n => (h.moves m l n).symm⟩

/-- A name has one handle in both automata. -/
theorem Named.eq_of_names {p : Nat} (hb : b.Named) (hnames : a.names = b.names) (hp : a.name? p = some n)
    (hq : b.name? q = some n) : p = q := by
  rw [name?, hnames] at hp
  exact hb.eq_of_name? hp hq

theorem SameByName.mem_states (h : a.SameByName b) (ha : a.Named) (hb : b.Named) (hnames : a.names = b.names)
    (hq : q ∈ a.states) : q ∈ b.states := by
  have hn := name?_eq_display (ha.states q hq)
  obtain ⟨p, hp, hpn⟩ := (h.states _).1 ⟨q, hq, hn⟩
  rwa [hb.eq_of_names hnames hn hpn]

theorem SameByName.mem_finals (h : a.SameByName b) (ha : a.Named) (hb : b.Named) (hnames : a.names = b.names)
    (hq : q ∈ a.finals) : q ∈ b.finals := by
  have hn := name?_eq_display (ha.finals q hq)
  obtain ⟨p, hp, hpn⟩ := (h.finals _).1 ⟨q, hq, hn⟩
  rwa [hb.eq_of_names hnames hn hpn]

theorem SameByName.hasEdge (h : a.SameByName b) (ha : a.Named) (hb : b.Named) (hnames : a.names = b.names)
    (he : a.HasEdge q label r) : b.HasEdge q label r := by
  obtain ⟨hq, hr⟩ := ha.edges q label r he
  have hm := name?_eq_display hq
  have hn := name?_eq_display hr
  obtain ⟨p, s, hps, hp, hs⟩ := (h.moves _ label _).1 ⟨q, r, he, hm, hn⟩
  rwa [hb.eq_of_names hnames hm hp, hb.eq_of_names hnames hn hs]

/-- **Automata that are the same by name, and number their names alike, are equal.** -/
theorem SameByName.eq (h : a.SameByName b) (ha : a.Named) (hb : b.Named) (hfa : a.Filled) (hfb : b.Filled)
    (hnames : a.names = b.names) (hal : a.alphabet = b.alphabet) : a = b := by
  have hinitial : a.initial = b.initial := by
    have hi := name?_eq_display hb.initial
    exact hb.eq_of_names hnames (h.initial.trans hi) hi
  have hstates : a.states = b.states := StateSet.ext fun q =>
    ⟨h.mem_states ha hb hnames, h.symm.mem_states hb ha hnames.symm⟩
  have hfinals : a.finals = b.finals := StateSet.ext fun q =>
    ⟨h.mem_finals ha hb hnames, h.symm.mem_finals hb ha hnames.symm⟩
  have htransitions : a.transitions = b.transitions := hfa.transitions_eq hfb fun q l r =>
    ⟨h.hasEdge ha hb hnames, h.symm.hasEdge hb ha hnames.symm⟩
  cases a
  cases b
  cases hnames
  cases hal
  cases hstates
  cases hinitial
  cases hfinals
  cases htransitions
  rfl

/-! ## Building with handles -/

/-- The automaton is built by operations on handles that were given out, which are listed. -/
inductive Assembled : Automaton → List Nat → Prop where
  | new (al : Alphabet) (name : String) : Assembled (.new al name) [(Automaton.new al name).initial]
  | intern {a : Automaton} {hs : List Nat} (h : Assembled a hs) (name : String) :
      Assembled (a.intern name) (a.handle name :: hs)
  | addState {a : Automaton} {hs : List Nat} (h : Assembled a hs) (name : String) :
      Assembled (a.addState name) (a.handle name :: hs)
  | addFinal {a : Automaton} {hs : List Nat} {q : Nat} (h : Assembled a hs) (hq : q ∈ hs) :
      Assembled (a.addFinal q) hs
  | addTransition {a : Automaton} {hs : List Nat} {q r : Nat} (h : Assembled a hs) (hq : q ∈ hs)
      (label : Label) (hr : r ∈ hs) : Assembled (a.addTransition q label r) hs
  | setInitial {a : Automaton} {hs : List Nat} {q : Nat} (h : Assembled a hs) (hq : q ∈ hs) :
      Assembled (a.setInitial q) hs

/-- Handles that were given out have names. -/
theorem Assembled.lt_length (h : a.Assembled hs) : ∀ q ∈ hs, q < a.names.length := by
  induction h with
  | new al name =>
    intro q hq
    rw [List.mem_singleton.1 hq]
    exact (named_new al name).initial
  | @intern a hs h name ih =>
    intro q hq
    rcases List.mem_cons.1 hq with rfl | hq
    · exact handle_lt a name
    · exact Nat.lt_of_lt_of_le (ih q hq) (length_le_intern a name)
  | @addState a hs h name ih =>
    intro q hq
    rcases List.mem_cons.1 hq with rfl | hq
    · exact handle_lt a name
    · exact Nat.lt_of_lt_of_le (ih q hq) (length_le_intern a name)
  | addFinal h hq ih => exact ih
  | addTransition h hq label hr ih => exact ih
  | setInitial h hq ih => exact ih

/-- **Automata that are built with their handles are told by name.** -/
theorem Assembled.named (h : a.Assembled hs) : a.Named := by
  induction h with
  | new al name => exact named_new al name
  | intern h name ih => exact ih.intern name
  | addState h name ih => exact ih.addState name
  | addFinal h hq ih => exact ih.addFinal (h.lt_length _ hq)
  | addTransition h hq label hr ih => exact ih.addTransition (h.lt_length _ hq) (h.lt_length _ hr) label
  | setInitial h hq ih => exact ih.setInitial (h.lt_length _ hq)

theorem Assembled.filled (h : a.Assembled hs) : a.Filled := by
  induction h with
  | new al name => exact filled_new al name
  | intern h name ih => exact ih.intern name
  | addState h name ih => exact ih.addState name
  | addFinal h hq ih => exact ih.congr rfl
  | addTransition h hq label hr ih => exact ih.addTransition _ label _
  | setInitial h hq ih => exact ih.congr rfl

end FiniteAutomata.Automaton
