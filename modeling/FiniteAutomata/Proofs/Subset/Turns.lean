import FiniteAutomata.Proofs.Subset.Naming
import FiniteAutomata.Proofs.Subset.Sufficiency

/-!
# The turns of the construction

The loop of the construction takes one set off the worklist in each turn, and puts sets at its end. What it
puts there was never met before, so every set passes the worklist once: none is processed twice, and the test
whether its composite state is finished never skips one. This holds of a construction that stops at its limit
as well.

Main theorem `turns_construct`: how many turns the loop takes at most, what each of them takes off the
worklist, and how many quote marks the search for an unused name tries.
-/
namespace FiniteAutomata

namespace Construction

/-- A turn of the loop. -/
structure Turn where
  /-- The construction before the turn. -/
  before : Construction
  /-- The set that is taken off the worklist. -/
  popped : StateSet
  /-- The sets that are put on the worklist, in this order. -/
  queued : List StateSet

/-- The loop goes through the turns from the construction on, and has the outcome. -/
inductive Turns (a : Automaton) (limit : Nat) :
    Construction → List Turn → Except Construction Construction → Prop where
  | done {k : Construction} (hw : k.worklist = []) : Turns a limit k [] (.ok k)
  | stop {k k' : Construction} {s : StateSet} {rest queued : List StateSet} (hw : k.worklist = s :: rest)
      (hp : process a limit { k with worklist := rest } s = .error k') (hq : k'.worklist = rest ++ queued) :
      Turns a limit k [⟨k, s, queued⟩] (.error k')
  | next {k k' : Construction} {s : StateSet} {rest queued : List StateSet} {ts : List Turn}
      {outcome : Except Construction Construction} (hw : k.worklist = s :: rest)
      (hp : process a limit { k with worklist := rest } s = .ok k') (hq : k'.worklist = rest ++ queued)
      (ht : Turns a limit k' ts outcome) : Turns a limit k (⟨k, s, queued⟩ :: ts) outcome

/-- The turns of a whole construction. There are none when no place is left for the initial state. -/
def AllTurns (a : Automaton) (limit : Nat) (ts : List Turn) (outcome : Except Construction Construction) : Prop :=
  if limit = 0 then ts = [] ∧ outcome = .error (start a) else Turns a limit (start a) ts outcome

/-- Everything that was ever on the worklist: the set of the initial state, and what the turns put there. -/
def history (a : Automaton) (ts : List Turn) : List StateSet :=
  .singleton a.initial :: ts.flatMap Turn.queued

/-- What is left of a construction, whether it succeeds or stops. -/
def left : Except Construction Construction → Construction
  | .ok k => k
  | .error k => k

/-- The sets of the list, each listed once, are those that were met. -/
structure Met (k : Construction) (found : List StateSet) : Prop where
  nodup : found.Nodup
  new_iff : ∀ s, k.ids.get? s = none ↔ s ∉ found

variable {a : Automaton} {limit taken q : Nat} {k k' : Construction} {s : StateSet}
  {found : List StateSet} {ts : List Turn} {outcome : Except Construction Construction}

/-! ## What is put on the worklist -/

theorem met_start (a : Automaton) : (start a).Met [.singleton a.initial] := by
  refine ⟨by simp, fun s => ?_⟩
  rw [start_eq, List.mem_singleton]
  by_cases hs : s = .singleton a.initial
  · subst hs
    simp
  · simp [Table.get?_insert_of_ne _ hs, hs]

theorem Met.addComposite (h : k.Met found) (hs : k.ids.get? s = none) :
    (k.addComposite a s).Met (found ++ [s]) := by
  have hnew := (h.new_iff s).1 hs
  refine ⟨?_, fun t => ?_⟩
  · refine List.nodup_append.2 ⟨h.nodup, by simp, fun t ht u hu e => ?_⟩
    rw [List.mem_singleton] at hu
    exact hnew (hu ▸ e ▸ ht)
  · rw [addComposite_eq, List.mem_append, List.mem_singleton]
    by_cases ht : t = s
    · subst ht
      simp
    · simp [Table.get?_insert_of_ne _ ht, h.new_iff, ht]

/-- Adding the transitions of a composite state puts the sets on the worklist that are met for the first time,
up to where it stops. -/
theorem Met.connect {es : List (Char × StateSet)} (h : k.Met found) :
    ∃ queued, (left (k.connect a limit q es)).worklist = k.worklist ++ queued ∧
      (left (k.connect a limit q es)).Met (found ++ queued) := by
  induction es generalizing k found with
  | nil => exact ⟨[], (List.append_nil _).symm, by rwa [List.append_nil]⟩
  | cons e es ih =>
    unfold Construction.connect Construction.visit
    cases hid : k.ids.get? e.2 with
    | some r =>
      have h₁ : (k.addTransition q e.1 r).Met found := ⟨h.nodup, h.new_iff⟩
      exact ih h₁
    | none =>
      by_cases hlt : k.ids.size < limit
      · simp only [if_pos hlt]
        have h₁ := h.addComposite (a := a) hid
        have h₂ : ((k.addComposite a e.2).addTransition q e.1
            (k.result.handle (a.compositeName k.result.names e.2))).Met (found ++ [e.2]) := ⟨h₁.nodup, h₁.new_iff⟩
        obtain ⟨queued, hw, hm⟩ := ih h₂
        refine ⟨e.2 :: queued, hw.trans ?_, ?_⟩
        · show k.worklist ++ [e.2] ++ queued = k.worklist ++ e.2 :: queued
          rw [List.append_assoc, List.singleton_append]
        · rwa [List.append_assoc, List.singleton_append] at hm
      · simp only [if_neg hlt]
        exact ⟨[], (List.append_nil _).symm, by rwa [List.append_nil]⟩

theorem Met.process (h : k.Met found) (a : Automaton) (limit : Nat) (s : StateSet) :
    ∃ queued, (left (k.process a limit s)).worklist = k.worklist ++ queued ∧
      (left (k.process a limit s)).Met (found ++ queued) := by
  have hsame : ∃ queued, k.worklist = k.worklist ++ queued ∧ k.Met (found ++ queued) :=
    ⟨[], (List.append_nil _).symm, by rwa [List.append_nil]⟩
  unfold Construction.process
  split
  · exact hsame
  · rename_i q _
    split
    · exact hsame
    · have h₁ : (k.finish a q s).Met found := ⟨h.nodup, h.new_iff⟩
      exact h₁.connect

/-- The loop has turns, whatever its outcome is. -/
theorem Met.exists_turns (h : k.Met found) : ∃ ts, Turns a limit k ts (k.run a limit) := by
  fun_induction Construction.run a limit k generalizing found with
  | case1 k hw => exact ⟨[], .done hw⟩
  | case2 k s rest hw k₁ hp =>
    have hrest : ({ k with worklist := rest } : Construction).Met found := ⟨h.nodup, h.new_iff⟩
    obtain ⟨queued, hq, -⟩ := hrest.process a limit s
    rw [hp] at hq
    exact ⟨_, .stop hw hp hq⟩
  | case3 k s rest hw k₁ hp ih =>
    have hrest : ({ k with worklist := rest } : Construction).Met found := ⟨h.nodup, h.new_iff⟩
    obtain ⟨queued, hq, hm⟩ := hrest.process a limit s
    rw [hp] at hq hm
    obtain ⟨ts, ht⟩ := ih hm
    exact ⟨_, .next hw hp hq ht⟩

/-- **What the turns put on the worklist was not met before**, each set once. -/
theorem Turns.nodup (h : Turns a limit k ts outcome) (M : k.Met found) :
    (found ++ ts.flatMap Turn.queued).Nodup := by
  have hqueued : ∀ {k k' : Construction} {s : StateSet} {rest queued found : List StateSet}, k.Met found →
      left (process a limit { k with worklist := rest } s) = k' → k'.worklist = rest ++ queued →
      k'.Met (found ++ queued) := by
    intro k k' s rest queued found M hp hq
    have hrest : ({ k with worklist := rest } : Construction).Met found := ⟨M.nodup, M.new_iff⟩
    obtain ⟨queued', hq', hm⟩ := hrest.process a limit s
    rw [hp] at hq' hm
    have e : rest ++ queued = rest ++ queued' := hq.symm.trans hq'
    rwa [List.append_cancel_left e]
  induction h generalizing found with
  | done hw => simpa using M.nodup
  | stop hw hp hq => simpa using (hqueued M (by rw [hp]; rfl) hq).nodup
  | next hw hp hq _ ih =>
    rw [List.flatMap_cons, ← List.append_assoc]
    exact ih (hqueued M (by rw [hp]; rfl) hq)

/-- Sets are taken off the worklist in the order in which they were put there. -/
theorem Turns.popped_prefix (h : Turns a limit k ts outcome) :
    ts.map Turn.popped <+: k.worklist ++ ts.flatMap Turn.queued := by
  induction h with
  | done hw => exact List.nil_prefix
  | stop hw hp hq => simp [hw]
  | next hw hp hq _ ih =>
    rw [hq, List.append_assoc] at ih
    rw [hw, List.map_cons, List.cons_append, List.flatMap_cons]
    exact List.cons_prefix_cons.2 ⟨rfl, ih⟩

/-! ## What is taken off the worklist -/

/-- The set of the turn is reached, and its composite state is not finished. -/
def Turn.Proper (a : Automaton) (t : Turn) : Prop :=
  a.Reached t.popped ∧ ∃ q, t.before.ids.get? t.popped = some q ∧ q ∉ t.before.finished

/-- The next set of the worklist is one that was met, with the handle of the next composite state. -/
theorem Progress.proper {rest queued : List StateSet} (P : Progress a k found taken (Processed a found taken))
    (O : Originates found (Processed a found taken)) (hw : k.worklist = s :: rest) :
    Turn.Proper a ⟨k, s, queued⟩ := by
  have hs := (drop_eq_cons (P.worklist.symm.trans hw)).1
  refine ⟨P.reached O (List.mem_of_getElem? hs), taken, (P.ids s taken).2 hs, ?_⟩
  rw [P.finished, StateSet.mem_below]
  exact Nat.lt_irrefl taken

/-- **Each turn takes a set off the worklist that is not finished**, and there are no more turns than places
within the limit. -/
theorem Progress.turns (P : Progress a k found taken (Processed a found taken))
    (O : Originates found (Processed a found taken)) (W : k.Within limit) (h : Turns a limit k ts outcome) :
    taken + ts.length ≤ limit ∧ ∀ t ∈ ts, t.Proper a := by
  have hle : ∀ {k : Construction} {found : List StateSet} {taken : Nat},
      Progress a k found taken (Processed a found taken) → k.Within limit → found.length ≤ limit := by
    intro k found taken P W
    rw [← P.length_names, W.names]
    exact W.le
  induction h generalizing found taken with
  | done hw => exact ⟨Nat.le_trans P.taken_le (hle P W), nofun⟩
  | stop hw hp hq =>
    have hlt := (List.getElem?_eq_some_iff.1 (drop_eq_cons (P.worklist.symm.trans hw)).1).1
    exact ⟨Nat.le_trans hlt (hle P W), by simpa using P.proper O hw⟩
  | @next k k' s rest queued ts _ hw hp hq _ ih =>
    obtain ⟨found', -, P', O'⟩ := P.process O hw hp
    have hrest : ({ k with worklist := rest } : Construction).Within limit := ⟨W.names, W.states, W.le⟩
    obtain ⟨hlen, hall⟩ := ih P' O' (hrest.process hp)
    refine ⟨?_, List.forall_mem_cons.2 ⟨P.proper O hw, hall⟩⟩
    rw [List.length_cons]
    omega

end Construction

namespace Automaton

open Construction

variable {a : Automaton}

/-- **The loop takes no more turns than the limit has places and the declared states have subsets**, whether it
ends or stops. Each turn takes a set of declared states off the worklist, which was put there once, in the
order in which these sets were put there, and whose composite state is not finished. A search for an unused
name tries no more quote marks than there are names. -/
theorem turns_construct (hv : a.validate = .ok ()) (limit : Nat) :
    (∃ ts, AllTurns a limit ts (construct a limit)) ∧
      (∀ ts outcome, AllTurns a limit ts outcome →
        ts.length ≤ min limit (2 ^ a.size) ∧ (history a ts).Nodup ∧ ts.map Turn.popped <+: history a ts ∧
          ∀ t ∈ ts, (∀ q ∈ t.popped, q ∈ a.states) ∧
            ∃ q, t.before.ids.get? t.popped = some q ∧ q ∉ t.before.finished) ∧
      ∀ (k : Construction) (s : StateSet), a.joinedName s ∈ k.result.names →
        ∃ n ≤ k.result.names.length, a.compositeName k.result.names s = marked (a.bracedName s) n ∧
          marked (a.bracedName s) n ∉ k.result.names ∧ ∀ m < n, marked (a.bracedName s) m ∈ k.result.names := by
  have hv := validate_eq_ok_iff.1 hv
  refine ⟨?_, fun ts outcome h => ?_, fun k s hs => ?_⟩
  · unfold AllTurns construct
    by_cases hlimit : limit = 0
    · simp [hlimit]
    · simp only [if_neg hlimit]
      exact (met_start a).exists_turns
  · unfold AllTurns at h
    split at h
    · obtain ⟨rfl, -⟩ := h
      exact ⟨Nat.zero_le _, by simp [history], List.nil_prefix, nofun⟩
    · rename_i hlimit
      have hnodup : (history a ts).Nodup := h.nodup (met_start a)
      have hprefix : ts.map Turn.popped <+: history a ts := h.popped_prefix
      obtain ⟨hle, hproper⟩ := (progress_start a).turns (originates_start a) (within_start a hlimit) h
      have hdeclared : ∀ t ∈ ts, ∀ q ∈ t.popped, q ∈ a.states := fun t ht => (hproper t ht).1.declared hv
      refine ⟨Nat.le_min.2 ⟨by omega, ?_⟩, hnodup, hprefix, fun t ht => ⟨hdeclared t ht, (hproper t ht).2⟩⟩
      have hsubsets : (ts.map Turn.popped).length ≤ 2 ^ a.states.size := by
        refine StateSet.length_le_two_pow (hnodup.sublist hprefix.sublist) fun s hs => ?_
        obtain ⟨t, ht, rfl⟩ := List.mem_map.1 hs
        exact hdeclared t ht
      rwa [List.length_map] at hsubsets
  · obtain ⟨n, hn, hfree, htaken⟩ := (a.compositeName_cases k.result.names s).2 hs
    exact ⟨n, marks_le_length htaken, hn, hfree, htaken⟩

/-- The automaton `forked` has four reached sets. With a limit of three, the loop stops after three turns at
most. -/
theorem turns_construct_forked :
    forked.validate = .ok () ∧ ∃ ts k, AllTurns forked 3 ts (.error k) ∧ ts.length ≤ 3 ∧
      ts.map Turn.popped <+: history forked ts := by
  have hv : forked.validate = .ok () := by decide
  obtain ⟨⟨ts, hts⟩, hall, -⟩ := turns_construct hv 3
  cases hk : construct forked 3 with
  | ok k =>
    have h : (construct forked 3).toBool = false := by decide +kernel
    rw [hk] at h
    cases h
  | error k =>
    rw [hk] at hts
    obtain ⟨hlen, -, hprefix, -⟩ := hall ts _ hts
    exact ⟨hv, ts, k, hts, Nat.le_trans hlen (Nat.min_le_left _ _), hprefix⟩

end Automaton

end FiniteAutomata
