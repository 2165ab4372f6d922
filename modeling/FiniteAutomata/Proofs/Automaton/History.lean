import FiniteAutomata.Description.Reader
import FiniteAutomata.Grammar.Duality
import FiniteAutomata.Proofs.Automaton.Encoding
import FiniteAutomata.Proofs.Automaton.Named
import FiniteAutomata.Proofs.Except

/-!
# Histories of automata

An automaton is new, loaded, converted from a grammar or decoded (`Origin`), and is then changed by
operations on any handles (`Operation`). Names that are in the table keep their handles
(`state?_after_of_some`, `name?_after_of_some`), and a state that is declared on the way has a name
(`mem_states_after`). Loading a text and converting a grammar are themselves operations on a new automaton
(`Origin.becomes`); the decoder alone takes the table of names and the declared states as they come.
-/
namespace FiniteAutomata

namespace Automaton

/-- A change of an automaton. Handles are not checked. -/
inductive Operation where
  | intern (name : String)
  | addState (name : String)
  | addFinal (q : Nat)
  | addTransition (source : Nat) (label : Label) (target : Nat)
  | setInitial (q : Nat)
  deriving DecidableEq, Repr

/-- The automaton after an operation. -/
def apply (a : Automaton) : Operation → Automaton
  | .intern name => a.intern name
  | .addState name => a.addState name
  | .addFinal q => a.addFinal q
  | .addTransition source label target => a.addTransition source label target
  | .setInitial q => a.setInitial q

/-- The automaton after some operations, the first one first. -/
def after (a : Automaton) (ops : List Operation) : Automaton := ops.foldl apply a

/-- Where an automaton comes from. -/
inductive Origin where
  | new (al : Alphabet) (name : String)
  | text (t : String)
  | grammar (g : Grammar)
  | bytes (bs : List UInt8)

/-- The automaton of an origin, if it has one. -/
def Origin.automaton? : Origin → Option Automaton
  | .new al name => some (.new al name)
  | .text t => (ofDescription t).toOption
  | .grammar g => g.toAutomaton.toOption
  | .bytes bs => decode? bs

/-- Whether the automaton is decoded. -/
def Origin.isDecoded : Origin → Bool
  | .bytes _ => true
  | _ => false

variable {a b base : Automaton} {op : Operation} {ops : List Operation} {o : Origin} {q r : Nat} {n : String}

/-! ## One operation -/

theorem names_prefix_apply (a : Automaton) (op : Operation) : a.names <+: (a.apply op).names := by
  cases op with
  | intern name => exact names_prefix_intern a name
  | addState name => exact names_prefix_intern a name
  | addFinal q => exact List.prefix_refl _
  | addTransition q label r => exact List.prefix_refl _
  | setInitial q => exact List.prefix_refl _

theorem state?_apply_of_some (op : Operation) (h : a.state? n = some q) : (a.apply op).state? n = some q := by
  cases op with
  | intern name => exact state?_intern_of_some h
  | addState name => exact state?_intern_of_some (a := a) h
  | addFinal q => exact h
  | addTransition q label r => exact h
  | setInitial q => exact h

theorem nodup_names_apply (op : Operation) (h : a.names.Nodup) : (a.apply op).names.Nodup := by
  cases op with
  | intern name => exact nodup_names_intern h name
  | addState name => exact nodup_names_intern h name
  | addFinal q => exact h
  | addTransition q label r => exact h
  | setInitial q => exact h

/-- Declaring a name is the only operation that declares a state. -/
theorem mem_states_apply :
    q ∈ (a.apply op).states ↔ q ∈ a.states ∨ ∃ name, op = .addState name ∧ q = a.handle name := by
  cases op with
  | intern name => simp [apply, states_intern]
  | addState name => simp [apply, addState, or_comm]
  | addFinal q => simp [apply, addFinal]
  | addTransition q label r => simp [apply, addTransition]
  | setInitial q => simp [apply, setInitial]

/-! ## Runs of operations -/

theorem after_append (a : Automaton) (ops more : List Operation) :
    a.after (ops ++ more) = (a.after ops).after more := List.foldl_append

/-- The names that are in the table stay in their places. -/
theorem names_prefix_after (a : Automaton) (ops : List Operation) : a.names <+: (a.after ops).names :=
  List.foldlRecOn ops apply (motive := fun b => a.names <+: b.names) (List.prefix_refl _)
    fun b hb op _ => hb.trans (names_prefix_apply b op)

theorem length_le_after (a : Automaton) (ops : List Operation) :
    a.names.length ≤ (a.after ops).names.length := (names_prefix_after a ops).length_le

theorem state?_after_of_some (ops : List Operation) (h : a.state? n = some q) :
    (a.after ops).state? n = some q :=
  List.foldlRecOn ops apply (motive := fun b => b.state? n = some q) h
    fun _ hb op _ => state?_apply_of_some op hb

theorem name?_after_of_some (ops : List Operation) (h : a.name? q = some n) :
    (a.after ops).name? q = some n := by
  obtain ⟨ns, hns⟩ := names_prefix_after a ops
  obtain ⟨hq, -⟩ := List.getElem?_eq_some_iff.1 h
  rw [name?, ← hns, List.getElem?_append_left hq]
  exact h

theorem nodup_names_after (ops : List Operation) (h : a.names.Nodup) : (a.after ops).names.Nodup :=
  List.foldlRecOn ops apply (motive := fun b => b.names.Nodup) h fun _ hb op _ => nodup_names_apply op hb

/-- A declared state was declared before or has a name. -/
theorem mem_states_after (ops : List Operation) :
    (∀ q ∈ a.states, q ∈ (a.after ops).states) ∧
      ∀ q ∈ (a.after ops).states, q ∈ a.states ∨ q < (a.after ops).names.length := by
  refine List.foldlRecOn ops apply (motive := fun b =>
    (∀ q ∈ a.states, q ∈ b.states) ∧ ∀ q ∈ b.states, q ∈ a.states ∨ q < b.names.length) ?_ ?_
  · exact ⟨fun q hq => hq, fun q hq => .inl hq⟩
  · rintro b ⟨hkeep, hnew⟩ op -
    refine ⟨fun q hq => mem_states_apply.2 (.inl (hkeep q hq)), fun q hq => ?_⟩
    rcases mem_states_apply.1 hq with hq | ⟨name, rfl, rfl⟩
    · have hle := (names_prefix_apply b op).length_le
      exact (hnew q hq).imp_right fun hlt => Nat.lt_of_lt_of_le hlt hle
    · exact .inr (handle_lt b name)

/-! ## Origins -/

/-- The first automaton is turned into the second by operations. -/
def Becomes (a b : Automaton) : Prop := ∃ ops, b = a.after ops

theorem Becomes.refl (a : Automaton) : a.Becomes a := ⟨[], rfl⟩

theorem Becomes.apply (h : base.Becomes a) (op : Operation) : base.Becomes (a.apply op) := by
  obtain ⟨ops, rfl⟩ := h
  exact ⟨ops ++ [op], (after_append base ops [op]).symm⟩

theorem Becomes.addRow (h : base.Becomes a) (row : String × List (Label × String)) :
    base.Becomes (a.addRow row) := by
  refine List.foldlRecOn row.2 _ (h.apply (.intern row.1)) fun b hb e _ => ?_
  exact (hb.apply (.intern e.2)).apply (.addTransition _ e.1 _)

theorem becomes_automaton (d : Document) :
    (Automaton.new (.ofSymbols d.alphabet) d.initial).Becomes d.automaton := by
  have hstates := List.foldlRecOn d.states addState (Becomes.refl (.new (.ofSymbols d.alphabet) d.initial))
    fun _ hb n _ => hb.apply (.addState n)
  have hfinals := List.foldlRecOn d.accepting addFinalName hstates
    fun b hb n _ => (hb.apply (.intern n)).apply (.addFinal (b.handle n))
  exact List.foldlRecOn d.rows addRow hfinals fun _ hb r _ => hb.addRow r

end Automaton

namespace Grammar.Conversion

open Automaton

variable {g : Grammar} {base : Automaton} {b b' : Conversion} {name production : String} {source : Nat}

theorem becomes_addLastMove (h : base.Becomes b.automaton) (source : Nat) (c : Char) :
    base.Becomes (b.addLastMove source c).automaton := by
  unfold addLastMove withSink
  cases b.sink with
  | some q => exact h.apply (.addTransition source (some c) q)
  | none => exact ((h.apply (.addState _)).apply (.addFinal _)).apply (.addTransition source (some c) _)

theorem becomes_addProduction (h : base.Becomes b.automaton)
    (h' : addProduction g name source b production = .ok b') : base.Becomes b'.automaton := by
  have hmove : ∀ label target, base.Becomes (b.addMove source label target).automaton := fun label target =>
    (h.apply (.addState target)).apply (.addTransition source label (b.automaton.handle target))
  unfold addProduction at h'
  split at h'
  · exact Except.ok.inj h' ▸ hmove none production
  · split at h'
    · exact Except.ok.inj h' ▸ h.apply (.addFinal source)
    · rename_i c cs _
      split at h'
      · simp only at h'
        split at h'
        · exact Except.ok.inj h' ▸ becomes_addLastMove h source c
        · split at h'
          · exact Except.ok.inj h' ▸ hmove (some c) (String.ofList cs)
          · cases h'
      · cases h'

theorem becomes_addProductions {entry : String × List String} (h : base.Becomes b.automaton)
    (h' : addProductions g b entry = .ok b') : base.Becomes b'.automaton := by
  unfold addProductions at h'
  split at h'
  · cases h'
  · exact foldlM_induction (motive := fun _ b => base.Becomes b.automaton) h' h
      fun _ _ _ _ _ hb hb' => becomes_addProduction hb hb'

end Grammar.Conversion

namespace Automaton

variable {a : Automaton} {o : Origin}

theorem becomes_toAutomaton {g : Grammar} (h : g.toAutomaton = .ok a) :
    (Automaton.new g.terminals g.start).Becomes a := by
  obtain ⟨result, hresult, h⟩ := bind_eq_ok.1 h
  obtain rfl := Except.ok.inj h
  have hstates := List.foldlRecOn g.nonTerminals addState (Becomes.refl (.new g.terminals g.start))
    fun _ hb n _ => hb.apply (.addState n)
  exact foldlM_induction (motive := fun _ b => (Automaton.new g.terminals g.start).Becomes b.automaton)
    hresult hstates fun _ _ _ _ _ hb hb' => Grammar.Conversion.becomes_addProductions hb hb'

/-- **An automaton that is not decoded is made of a new one by operations.** -/
theorem Origin.becomes (h : o.automaton? = some a) (hd : o.isDecoded = false) :
    ∃ al name, (Automaton.new al name).Becomes a := by
  cases o with
  | new al name => exact ⟨al, name, Option.some.inj h ▸ Becomes.refl _⟩
  | text t =>
    obtain ⟨d, -, rfl⟩ := map_eq_ok.1 (toOption_eq_some.1 h)
    exact ⟨_, _, becomes_automaton d⟩
  | grammar g => exact ⟨_, _, becomes_toAutomaton (toOption_eq_some.1 h)⟩
  | bytes bs => cases hd

/-- The bytes of an automaton are an origin of it, with its alphabet read again. -/
theorem Storable.automaton?_encode (h : a.Storable) : (Origin.bytes a.encode).automaton? = some a.reread :=
  List.append_nil a.encode ▸ h.decode?_encode []

theorem Origin.nodup_names (h : o.automaton? = some a) (hd : o.isDecoded = false) : a.names.Nodup := by
  obtain ⟨al, name, ops, rfl⟩ := Origin.becomes h hd
  exact nodup_names_after ops (named_new al name).nodup

/-- Unless it is decoded, an automaton has names for its declared states. -/
theorem Origin.lt_length_of_mem_states (h : o.automaton? = some a) (hd : o.isDecoded = false) :
    ∀ q ∈ a.states, q < a.names.length := by
  obtain ⟨al, name, ops, rfl⟩ := Origin.becomes h hd
  intro q hq
  rcases (mem_states_after ops).2 q hq with hq | hlt
  · exact Nat.lt_of_lt_of_le ((named_new al name).states q hq) (length_le_after _ ops)
  · exact hlt

end Automaton

end FiniteAutomata
