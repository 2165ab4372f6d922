import FiniteAutomata.Subset.Composite

/-!
# The subset construction

The composite states of an automaton are found breadth first, from the set of its initial state. A
set that is met for the first time becomes a composite state and joins the worklist; the sets of the
worklist are processed in order, each adding its transitions to the result. The construction stops
at a limit on the number of composite states. Main statement: each set that is taken off the
worklist brings the construction nearer to its end (`Construction.room_process`).
-/
namespace FiniteAutomata

/-- A subset construction on its way. -/
structure Construction where
  /-- The deterministic automaton, as far as it is built. -/
  result : Automaton
  /-- The composite state of each set that was met. -/
  ids : Table StateSet Nat
  /-- The set that each composite state stands for. -/
  composites : Table Nat StateSet
  /-- The sets that are still to be processed, in the order in which they were met. -/
  worklist : List StateSet
  /-- The composite states whose sets were processed. -/
  finished : StateSet
  deriving Inhabited

namespace Construction

/-- The construction that has met the set of the initial state only. -/
def start (a : Automaton) : Construction :=
  let s := StateSet.singleton a.initial
  let b := Automaton.new a.alphabet (a.joinedName s)
  { result := b
    ids := (∅ : Table StateSet Nat).insert s b.initial
    composites := (∅ : Table Nat StateSet).insert b.initial s
    worklist := [s]
    finished := ∅ }

/-- Makes a set a composite state and puts it on the worklist. -/
def addComposite (a : Automaton) (k : Construction) (s : StateSet) : Construction :=
  let name := a.compositeName k.result.names s
  let q := k.result.handle name
  { k with
    result := k.result.addState name
    ids := k.ids.insert s q
    composites := k.composites.insert q s
    worklist := k.worklist ++ [s] }

/--
The composite state of a set, which is added when the set is new. Fails, with the construction as it
stands, when a new one would exceed the limit.
-/
def visit (a : Automaton) (limit : Nat) (k : Construction) (s : StateSet) :
    Except Construction (Nat × Construction) :=
  match k.ids.get? s with
  | some q => .ok (q, k)
  | none =>
    if k.ids.size < limit then
      .ok (k.result.handle (a.compositeName k.result.names s), k.addComposite a s)
    else .error k

/-- Adds a transition to the result. -/
def addTransition (k : Construction) (source : Nat) (c : Char) (target : Nat) : Construction :=
  { k with result := k.result.addTransition source (some c) target }

/-- Adds the transitions of a composite state to the sets that it leads to, symbol after symbol. -/
def connect (a : Automaton) (limit source : Nat) :
    Construction → List (Char × StateSet) → Except Construction Construction
  | k, [] => .ok k
  | k, (c, s) :: es =>
    match k.visit a limit s with
    | .error k => .error k
    | .ok (target, k) => connect a limit source (k.addTransition source c target) es

/-- Marks a composite state as processed, and makes it final when its set has a final state. -/
def finish (a : Automaton) (k : Construction) (q : Nat) (s : StateSet) : Construction :=
  { k with
    finished := k.finished.insert q
    result := if s.toList.any a.isFinal then k.result.addFinal q else k.result }

/--
Processes a set. One whose composite state is processed already is skipped. So is a set without a
composite state, but no set of the worklist is one.
-/
def process (a : Automaton) (limit : Nat) (k : Construction) (s : StateSet) :
    Except Construction Construction :=
  match k.ids.get? s with
  | none => .ok k
  | some q =>
    if k.finished.contains q then .ok k
    else (k.finish a q s).connect a limit q (a.merged s).entries

/-! ### Progress -/

/-- How many sets may still be processed. -/
def room (limit : Nat) (k : Construction) : Nat := limit - k.ids.size + k.worklist.length

theorem room_visit {a : Automaton} {limit q : Nat} {k k' : Construction} {s : StateSet}
    (h : k.visit a limit s = .ok (q, k')) : k'.room limit = k.room limit := by
  unfold visit at h
  split at h
  · cases h; rfl
  · rename_i hn
    split at h
    · rename_i hl
      cases h
      simp only [room, addComposite, Table.size_insert hn, List.length_append,
        List.length_singleton]
      omega
    · cases h

theorem room_connect {a : Automaton} {limit source : Nat} {es : List (Char × StateSet)}
    {k k' : Construction} (h : k.connect a limit source es = .ok k') :
    k'.room limit = k.room limit := by
  induction es generalizing k with
  | nil => cases h; rfl
  | cons e es ih =>
    unfold connect at h
    split at h
    · cases h
    · rename_i target k₁ hv
      have hk : (k₁.addTransition source e.1 target).room limit = k₁.room limit := rfl
      rw [ih h, hk, room_visit hv]

/-- Processing a set leaves as many sets to process as there were. -/
theorem room_process {a : Automaton} {limit : Nat} {k k' : Construction} {s : StateSet}
    (h : k.process a limit s = .ok k') : k'.room limit = k.room limit := by
  unfold process at h
  split at h
  · cases h; rfl
  · split at h
    · cases h; rfl
    · rename_i q _ _
      have hk : (k.finish a q s).room limit = k.room limit := rfl
      rw [room_connect h, hk]

/-! ### Running -/

/-- Processes the sets of the worklist until none is left. -/
def run (a : Automaton) (limit : Nat) (k : Construction) : Except Construction Construction :=
  match _h : k.worklist with
  | [] => .ok k
  | s :: rest =>
    match _h' : process a limit { k with worklist := rest } s with
    | .error k => .error k
    | .ok k => run a limit k
  termination_by k.room limit
  decreasing_by
    rw [room_process _h']
    simp only [room, _h, List.length_cons]
    omega

/-- The whole construction. A limit of zero leaves no place for the initial state. -/
def construct (a : Automaton) (limit : Nat) : Except Construction Construction :=
  if limit = 0 then .error (start a) else (start a).run a limit

end Construction

end FiniteAutomata
