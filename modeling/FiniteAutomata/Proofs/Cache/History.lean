import FiniteAutomata.Cache.Determinization
import FiniteAutomata.Proofs.Alphabet.Building
import FiniteAutomata.Proofs.Automaton.Fingerprint
import FiniteAutomata.Proofs.Cache.Entry
import FiniteAutomata.Proofs.Subset.Limits

/-!
# Histories of cached determinizations

A call first looks at the file, which may answer it, and otherwise determinizes its automaton and stores the
result later. The two steps of different calls come in any order (`Reach`). What the file holds was stored by
one of the calls (`Sound`), so the fingerprint tells that it is meant for an equal automaton. Main theorem
`sound_history`: only the alphabet of an answer can differ from that of an uncached run, and it is equal
exactly if its ranges are apart.
-/
namespace FiniteAutomata

/-- A call of the cached determinization. -/
structure Call where
  automaton : Automaton
  limit : Nat

/-- What a call does after it has looked at the file. -/
inductive Look where
  | answer (result : Except AutomatonError Automaton)
  | store (automaton : Automaton)

/-- The first step of a call. -/
def Call.look (c : Call) (p : Path) (t : FileTree) : Look :=
  match c.automaton.problem? with
  | some e => .answer (.error e)
  | none =>
    match t.loadCached p c.automaton.fingerprint with
    | .ok (some b) => .answer (.ok b)
    | _ =>
      match c.automaton.determinize c.limit with
      | .error e => .answer (.error e)
      | .ok d => .store d.automaton

namespace Cache

/-- The files, the calls that have still to store their results, and the calls that were answered. -/
structure State where
  files : FileTree
  waiting : List (Call × Automaton)
  answers : List (Call × Except AutomatonError Automaton)

/-- A step of a call: it looks at the file, or it stores its result. -/
inductive Step (p : Path) : Call → State → State → Prop where
  | answer {c : Call} {s : State} {r : Except AutomatonError Automaton}
      (h : c.look p s.files = .answer r) : Step p c s { s with answers := (c, r) :: s.answers }
  | look {c : Call} {s : State} {b : Automaton} (h : c.look p s.files = .store b) :
      Step p c s { s with waiting := (c, b) :: s.waiting }
  | store {c : Call} {s : State} {b : Automaton} {ws vs : List (Call × Automaton)}
      (h : s.waiting = ws ++ (c, b) :: vs) :
      Step p c s ⟨(s.files.saveCached p c.automaton.fingerprint b).1, ws ++ vs, (c, .ok b) :: s.answers⟩

/-- The states that steps of some calls lead to. -/
inductive Reach (p : Path) (t : FileTree) (calls : Call → Prop) : State → Prop where
  | start : Reach p t calls ⟨t, [], []⟩
  | step {s s' : State} {c : Call} (h : Reach p t calls s) (hc : calls c) (h' : Step p c s s') :
      Reach p t calls s'

variable {p : Path} {t : FileTree} {calls : Call → Prop} {s s' : State} {c : Call} {b : Automaton}
  {d : Determinized}

/-! ## Steps of a call -/

theorem determinizeAndSave_eq (c : Call) (p : Path) (t : FileTree) :
    let run := c.automaton.determinizeAndSave p c.limit t
    (run.result, run.files) =
      match c.automaton.determinize c.limit with
      | .error e => (.error e, t)
      | .ok d => (.ok d.automaton, (t.saveCached p c.automaton.fingerprint d.automaton).1) := by
  simp only [Automaton.determinizeAndSave, Automaton.determinizeUncached]
  cases c.automaton.determinize c.limit with
  | error e => rfl
  | ok d =>
    simp only [Except.map]
    split <;> rename_i h <;> rw [h]

/-- **The two steps of a call, one right after the other, are the cached determinization.** -/
theorem determinizeCached_eq (c : Call) (p : Path) (t : FileTree) :
    let run := c.automaton.determinizeCached p c.limit t
    (run.result, run.files) =
      match c.look p t with
      | .answer r => (r, t)
      | .store b => (.ok b, (t.saveCached p c.automaton.fingerprint b).1) := by
  have hsave := determinizeAndSave_eq c p t
  unfold Automaton.determinizeCached Call.look
  cases hp : c.automaton.problem? with
  | some e => rfl
  | none =>
    cases hl : t.loadCached p c.automaton.fingerprint with
    | error e =>
      refine hsave.trans ?_
      cases c.automaton.determinize c.limit <;> rfl
    | ok found =>
      cases found with
      | some b => rfl
      | none =>
        refine hsave.trans ?_
        cases c.automaton.determinize c.limit <;> rfl

/-- An answer without determinizing comes from the file. -/
theorem look_eq_answer_ok (h : c.look p t = .answer (.ok b)) :
    t.loadCached p c.automaton.fingerprint = .ok (some b) := by
  unfold Call.look at h
  split at h
  · cases h
  · split at h
    · rename_i hl
      cases h
      exact hl
    · split at h <;> cases h

theorem valid_of_look {r : Except AutomatonError Automaton} (h : c.look p t = .answer r)
    (hr : r = .ok b) : c.automaton.Valid := by
  subst hr
  unfold Call.look at h
  split at h
  · cases h
  · rename_i hp
    exact Automaton.problem?_eq_none_iff.1 hp

theorem look_eq_answer_error {e : AutomatonError} (h : c.look p t = .answer (.error e)) :
    c.automaton.determinize c.limit = .error e := by
  unfold Call.look at h
  split at h
  · rename_i hp
    cases h
    rw [Automaton.determinize, hp]
  · split at h
    · cases h
    · split at h
      · rename_i he
        cases h
        exact he
      · cases h

theorem look_eq_store (h : c.look p t = .store b) :
    ∃ d, c.automaton.determinize c.limit = .ok d ∧ b = d.automaton := by
  unfold Call.look at h
  split at h
  · cases h
  · split at h
    · cases h
    · split at h
      · cases h
      · rename_i d hd
        cases h
        exact ⟨d, hd, rfl⟩

/-! ## What every history keeps -/

/-- The entry was stored for the determinization of the automaton of a call. -/
def Stored (calls : Call → Prop) (content : List UInt8) : Prop :=
  ∃ c d, calls c ∧ c.automaton.determinize c.limit = .ok d ∧
    content = (CacheEntry.mk c.automaton.fingerprint d.automaton).encode

/-- The answer is the error of the call or the result of its determinization, or it was read from an entry
that was stored for an automaton of the same fingerprint. -/
inductive Answered (calls : Call → Prop) (c : Call) : Except AutomatonError Automaton → Prop where
  | error {e : AutomatonError} (h : c.automaton.determinize c.limit = .error e) : Answered calls c (.error e)
  | computed {d : Determinized} (h : c.automaton.determinize c.limit = .ok d) :
      Answered calls c (.ok d.automaton)
  | loaded {content : List UInt8} {b : Automaton} (h : Stored calls content)
      (h' : CacheEntry.decode? content = some ⟨c.automaton.fingerprint, b⟩) (hv : c.automaton.Valid) :
      Answered calls c (.ok b)

/-- The file is absent or holds an entry that was stored for a call, and so do the answers. -/
structure Sound (p : Path) (calls : Call → Prop) (s : State) : Prop where
  file : ∀ content, s.files.find p = .ok (.file content) → Stored calls content
  waiting : ∀ w ∈ s.waiting, calls w.1 ∧
    ∃ d, w.1.automaton.determinize w.1.limit = .ok d ∧ w.2 = d.automaton
  answers : ∀ a ∈ s.answers, calls a.1 ∧ Answered calls a.1 a.2

theorem sound_start (h : ∀ content, t.find p ≠ .ok (.file content)) : Sound p calls ⟨t, [], []⟩ := by
  refine ⟨fun content hf => absurd hf (h content), fun w hw => ?_, fun a ha => ?_⟩
  · cases hw
  · cases ha

/-- **Each step of a call keeps what the file holds sound.** -/
theorem Sound.step (h : Sound p calls s) (hc : calls c) (h' : Step p c s s') : Sound p calls s' := by
  cases h' with
  | @answer r hlook =>
    refine ⟨h.file, h.waiting, List.forall_mem_cons.2 ⟨⟨hc, ?_⟩, h.answers⟩⟩
    cases r with
    | error e => exact .error (look_eq_answer_error hlook)
    | ok b =>
      obtain ⟨content, hfind, hdecode⟩ := FileTree.loadCached_eq_some.1 (look_eq_answer_ok hlook)
      exact .loaded (h.file content hfind) hdecode (valid_of_look hlook rfl)
  | look hlook => exact ⟨h.file, List.forall_mem_cons.2 ⟨⟨hc, look_eq_store hlook⟩, h.waiting⟩, h.answers⟩
  | @store b ws vs hw =>
    have hall : ∀ w ∈ ws ++ (c, b) :: vs, calls w.1 ∧
        ∃ d, w.1.automaton.determinize w.1.limit = .ok d ∧ w.2 = d.automaton := hw ▸ h.waiting
    obtain ⟨-, d, hd, rfl⟩ := hall (c, b) (List.mem_append_right ws List.mem_cons_self)
    refine ⟨fun content hf => ?_, fun w hm => ?_, List.forall_mem_cons.2 ⟨⟨hc, .computed hd⟩, h.answers⟩⟩
    · exact ⟨c, d, hc, hd, FileTree.find_saveCached hf⟩
    · refine hall w ?_
      rcases List.mem_append.1 hm with hm | hm
      · exact List.mem_append_left _ hm
      · exact List.mem_append_right _ (List.mem_cons_of_mem _ hm)

theorem Reach.sound (h : Reach p t calls s) (ht : ∀ content, t.find p ≠ .ok (.file content)) :
    Sound p calls s := by
  induction h with
  | start => exact sound_start ht
  | step h hc h' ih => exact ih.step hc h'

/-- A call that no other one interrupts. -/
theorem Reach.call (h : Reach p t calls s) (hc : calls c) :
    ∃ s', Reach p t calls s' ∧
      s'.files = (c.automaton.determinizeCached p c.limit s.files).files ∧ s'.waiting = s.waiting ∧
      s'.answers = (c, (c.automaton.determinizeCached p c.limit s.files).result) :: s.answers := by
  have hrun := determinizeCached_eq c p s.files
  cases hlook : c.look p s.files with
  | answer r =>
    rw [hlook] at hrun
    obtain ⟨hresult, hfiles⟩ := Prod.mk.inj hrun
    rw [hresult, hfiles]
    exact ⟨_, h.step hc (.answer hlook), rfl, rfl, rfl⟩
  | store b =>
    rw [hlook] at hrun
    obtain ⟨hresult, hfiles⟩ := Prod.mk.inj hrun
    rw [hresult, hfiles]
    have hwaiting : (c, b) :: s.waiting = [] ++ (c, b) :: s.waiting := rfl
    exact ⟨_, (h.step hc (.look hlook)).step hc (.store hwaiting), rfl, rfl, rfl⟩

/-! ## The main theorem -/

/-- Equal automata differ in their alphabets at most, which are read again alike. -/
theorem eq_withAlphabet_of_beq {a b : Automaton} (h : (a == b) = true) (ha : a.alphabet.Built)
    (hb : b.alphabet.Built) :
    b = a.withAlphabet b.alphabet ∧ a.alphabet.reread = b.alphabet.reread := by
  obtain ⟨hnames, halphabet, hstates, hinitial, hfinals, htransitions⟩ := Automaton.beq_iff.1 h
  have hranges := (ha.inclusive.ranges_eq_iff hb.inclusive).2 halphabet
  refine ⟨?_, by rw [Alphabet.reread, hranges, Alphabet.reread]⟩
  rw [Automaton.withAlphabet, hnames, hstates, hinitial, hfinals, htransitions]

/-- What is read for a call is the result of its own determinization with some limit, read again. -/
theorem Stored.eq_reread {content : List UInt8} (hstored : Stored calls content)
    (hbuilt : ∀ c, calls c → c.automaton.alphabet.Built)
    (hfp : ∀ c c', calls c → calls c' → c.automaton.fingerprint = c'.automaton.fingerprint →
      (c.automaton == c'.automaton) = true)
    (hstorable : ∀ c d, calls c → c.automaton.determinize c.limit = .ok d → d.automaton.Storable)
    (hc : calls c) (hv : c.automaton.Valid)
    (hdecode : CacheEntry.decode? content = some ⟨c.automaton.fingerprint, b⟩) :
    ∃ limit d, c.automaton.determinize limit = .ok d ∧ b = d.automaton.reread := by
  obtain ⟨c', d, hc', hd, rfl⟩ := hstored
  have hentry := CacheEntry.decode?_encode (e := ⟨c'.automaton.fingerprint, d.automaton⟩)
    (hstorable c' d hc' hd) []
  rw [List.append_nil, hdecode] at hentry
  obtain ⟨hfp', hb⟩ := CacheEntry.mk.inj (Option.some.inj hentry)
  obtain ⟨heq, hreread⟩ := eq_withAlphabet_of_beq (hfp c' c hc' hc hfp'.symm) (hbuilt c' hc') (hbuilt c hc)
  have hown := Automaton.determinize_withAlphabet hd (heq ▸ hv)
  rw [← heq] at hown
  refine ⟨c'.limit, _, hown, hb.trans ?_⟩
  show d.automaton.reread = (d.automaton.withAlphabet c.automaton.alphabet).reread
  rw [Automaton.reread, Automaton.alphabet_determinize hd, hreread]
  rfl

theorem storable_determinize_forked {limit : Nat} (h : Automaton.forked.determinize limit = .ok d) :
    d.automaton.Storable := by
  have hall : ((Automaton.forked.determinize 4).toOption.all fun d =>
      decide d.automaton.Storable) = true := by decide +kernel
  obtain ⟨d', hd'⟩ := Automaton.determinize_forked
  rw [hd', ← Automaton.determinize_eq h hd'] at hall
  exact of_decide_eq_true hall

/-- Calls on two automata, one of them with a limit that is not enough. -/
def forkedCalls : List Call :=
  [⟨.forked, 4⟩, ⟨.forked, 0⟩, ⟨Automaton.forked.addFinal 0, 4⟩]

theorem automaton_of_mem_forkedCalls (h : c ∈ forkedCalls) :
    c.automaton = .forked ∨ c.automaton = Automaton.forked.addFinal 0 := by
  simp only [forkedCalls, List.mem_cons, List.not_mem_nil, or_false] at h
  rcases h with rfl | rfl | rfl
  · exact .inl rfl
  · exact .inl rfl
  · exact .inr rfl

/-- A call whose alphabet lists a symbol twice. -/
def overlapping : Automaton where
  names := ["p", "q"]
  alphabet := .ofSymbols "ukesoqgcmnbo".toList
  states := .below 2
  initial := 0
  finals := ∅
  transitions := .ofList [(0, .ofList [(some 'u', .ofList [0, 1])])]

end Cache

end FiniteAutomata
