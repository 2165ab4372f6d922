import FiniteAutomata.Proofs.Cache.History
import FiniteAutomata.Proofs.Subset.Ceiling

/-!
# The ceiling and the cache

The limit of a call is for its own determinization. An entry is taken whatever the limit, so a call may be
answered with more states than it has room for (`answer_above_ceiling`). What bounds them is the limit of the
call that stored the entry: each answer is traced to what the file held at first or to what an answered call
of the history has computed (`Traced`). Main theorem `size_answer`.
-/
namespace FiniteAutomata

theorem Automaton.isDeterministic_eq_of_beq {a b : Automaton} (h : (a == b) = true) :
    a.isDeterministic = b.isDeterministic := by
  obtain ⟨-, -, -, -, -, htransitions⟩ := Automaton.beq_iff.1 h
  unfold Automaton.isDeterministic
  rw [htransitions]

namespace Cache

/-- The content is the entry of a call that was answered with what it computed. -/
def Kept (s : State) (content : List UInt8) : Prop :=
  ∃ c d, (c, .ok d.automaton) ∈ s.answers ∧ c.automaton.determinize c.limit = .ok d ∧
    content = (CacheEntry.mk c.automaton.fingerprint d.automaton).encode

/-- The file held the content at first, or a call of the history has stored it. -/
def Held (p : Path) (t : FileTree) (s : State) (content : List UInt8) : Prop :=
  t.find p = .ok (.file content) ∨ Kept s content

/-- What the file holds, and what was read from it, was there at first or was stored in the history. -/
structure Traced (p : Path) (t : FileTree) (s : State) : Prop where
  file : ∀ content, s.files.find p = .ok (.file content) → Held p t s content
  waiting : ∀ w ∈ s.waiting, ∃ d, w.1.automaton.determinize w.1.limit = .ok d ∧ w.2 = d.automaton
  answers : ∀ c b, (c, .ok b) ∈ s.answers →
    (∃ d, c.automaton.determinize c.limit = .ok d ∧ b = d.automaton) ∨
      ∃ content, Held p t s content ∧ CacheEntry.decode? content = some ⟨c.automaton.fingerprint, b⟩

variable {p : Path} {t : FileTree} {calls : Call → Prop} {s s' : State} {c : Call} {b : Automaton}
  {content : List UInt8}

theorem Held.mono (h : Held p t s content) (hsub : s.answers ⊆ s'.answers) : Held p t s' content := by
  rcases h with h | ⟨c, d, hm, hd, he⟩
  · exact .inl h
  · exact .inr ⟨c, d, hsub hm, hd, he⟩

/-- Another answer that can be traced. -/
theorem Traced.answer {r : Except AutomatonError Automaton} {files : FileTree} {ws : List (Call × Automaton)}
    (h : Traced p t s) (hs : s' = ⟨files, ws, (c, r) :: s.answers⟩)
    (hfile : ∀ content, files.find p = .ok (.file content) → Held p t s' content)
    (hwaiting : ∀ w ∈ ws, w ∈ s.waiting)
    (hr : ∀ b, r = .ok b → (∃ d, c.automaton.determinize c.limit = .ok d ∧ b = d.automaton) ∨
      ∃ content, Held p t s' content ∧ CacheEntry.decode? content = some ⟨c.automaton.fingerprint, b⟩) :
    Traced p t s' := by
  subst hs
  refine ⟨hfile, fun w hw => h.waiting w (hwaiting w hw), fun c' b hm => ?_⟩
  rcases List.mem_cons.1 hm with he | hm
  · obtain ⟨rfl, rfl⟩ := Prod.mk.inj he
    exact hr b rfl
  · refine (h.answers c' b hm).imp_right fun ⟨content, hheld, hdecode⟩ => ?_
    exact ⟨content, hheld.mono (List.subset_cons_self _ _), hdecode⟩

/-- **Each step of a call keeps what was read traced.** -/
theorem Traced.step (h : Traced p t s) (h' : Step p c s s') : Traced p t s' := by
  cases h' with
  | answer hlook =>
    refine h.answer rfl (fun content hf => (h.file content hf).mono (List.subset_cons_self _ _))
      (fun w hw => hw) fun b hb => .inr ?_
    subst hb
    obtain ⟨content, hfind, hdecode⟩ := FileTree.loadCached_eq_some.1 (look_eq_answer_ok hlook)
    exact ⟨content, (h.file content hfind).mono (List.subset_cons_self _ _), hdecode⟩
  | look hlook => exact ⟨h.file, List.forall_mem_cons.2 ⟨look_eq_store hlook, h.waiting⟩, h.answers⟩
  | @store b ws vs hw =>
    have hmem : (c, b) ∈ s.waiting := hw ▸ List.mem_append_right ws List.mem_cons_self
    obtain ⟨d, hd, rfl⟩ := h.waiting _ hmem
    refine h.answer rfl (fun content hf => .inr ?_) (fun w hm => ?_) fun b hb => .inl ⟨d, hd, ?_⟩
    · exact ⟨c, d, List.mem_cons_self, hd, FileTree.find_saveCached hf⟩
    · rw [hw]
      rcases List.mem_append.1 hm with hm | hm
      · exact List.mem_append_left _ hm
      · exact List.mem_append_right _ (List.mem_cons_of_mem _ hm)
    · exact (Except.ok.inj hb).symm

theorem Reach.traced (h : Reach p t calls s) : Traced p t s := by
  induction h with
  | start => exact ⟨fun content hf => .inl hf, nofun, nofun⟩
  | step h hc h' ih => exact ih.step h'

/-- An answer has as many states as there is room for, unless it was read from the file. -/
theorem Traced.size_le_or_held (h : Traced p t s) (hm : (c, .ok b) ∈ s.answers)
    (hn : c.automaton.isDeterministic = false) :
    b.size ≤ c.limit ∨
      ∃ content, Held p t s content ∧ CacheEntry.decode? content = some ⟨c.automaton.fingerprint, b⟩ := by
  refine (h.answers c b hm).imp_left ?_
  rintro ⟨d, hd, rfl⟩
  exact Automaton.size_le_of_determinize hn hd

/-- What is read from a stored entry has as many states as what was stored. -/
theorem Kept.size_eq (h : Kept s content)
    (hstorable : ∀ c d, (c, .ok d.automaton) ∈ s.answers → c.automaton.determinize c.limit = .ok d →
      d.automaton.Storable)
    (hdecode : CacheEntry.decode? content = some ⟨c.automaton.fingerprint, b⟩) :
    ∃ c' d, (c', .ok d.automaton) ∈ s.answers ∧ c'.automaton.determinize c'.limit = .ok d ∧
      c'.automaton.fingerprint = c.automaton.fingerprint ∧ d.automaton.size = b.size := by
  obtain ⟨c', d, hm, hd, rfl⟩ := h
  have hentry := CacheEntry.decode?_encode (e := ⟨c'.automaton.fingerprint, d.automaton⟩)
    (hstorable c' d hm hd) []
  rw [List.append_nil, hdecode] at hentry
  obtain ⟨hfp, rfl⟩ := CacheEntry.mk.inj (Option.some.inj hentry)
  exact ⟨c', d, hm, hd, hfp.symm, rfl⟩

/-- **In every history of calls, an answer to a call on an automaton that is not deterministic has at most as
many states as the limit of the call, unless it was read from an entry for its fingerprint** that was in the
file at first or was stored for a call. Where there was no file at first, and fingerprints tell the automata
apart, it has as many states as the answer to a call on an equal automaton, whose own limit was enough. -/
theorem size_answer (h : Reach p t calls s) :
    (∀ c b, (c, .ok b) ∈ s.answers → c.automaton.isDeterministic = false →
      b.size ≤ c.limit ∨ ∃ content, Held p t s content ∧
        CacheEntry.decode? content = some ⟨c.automaton.fingerprint, b⟩) ∧
    ((∀ content, t.find p ≠ .ok (.file content)) →
      (∀ c c' r r', (c, r) ∈ s.answers → (c', r') ∈ s.answers →
        c'.automaton.fingerprint = c.automaton.fingerprint → (c'.automaton == c.automaton) = true) →
      (∀ c d, (c, .ok d.automaton) ∈ s.answers → c.automaton.determinize c.limit = .ok d →
        d.automaton.Storable) →
      ∀ c b, (c, .ok b) ∈ s.answers → c.automaton.isDeterministic = false →
        ∃ c' b', (c', .ok b') ∈ s.answers ∧ (c'.automaton == c.automaton) = true ∧
          b'.size = b.size ∧ b'.size ≤ c'.limit) ∧
    ∀ c, calls c → ∃ s', Reach p t calls s' ∧
      s'.files = (c.automaton.determinizeCached p c.limit s.files).files ∧ s'.waiting = s.waiting ∧
      s'.answers = (c, (c.automaton.determinizeCached p c.limit s.files).result) :: s.answers := by
  have htraced := h.traced
  refine ⟨fun c b => htraced.size_le_or_held, fun ht hfp hstorable c b hm hn => ?_, fun c hc => h.call hc⟩
  -- the call itself had room, or the content was there at first, or another call stored it
  rcases htraced.size_le_or_held hm hn with hle | ⟨content, hfind | hkept, hdecode⟩
  · exact ⟨c, b, hm, hfp c c _ _ hm hm rfl, rfl, hle⟩
  · exact absurd hfind (ht content)
  · obtain ⟨c', d, hm', hd, hfp', hsize⟩ := hkept.size_eq hstorable hdecode
    have heq := hfp c c' _ _ hm hm' hfp'
    have hn' : c'.automaton.isDeterministic = false := (Automaton.isDeterministic_eq_of_beq heq).trans hn
    exact ⟨c', d.automaton, hm', heq, hsize, Automaton.size_le_of_determinize hn' hd⟩

/-- The second call has room for one state. Its answer has as many as that of the first call, and more than
one. -/
theorem size_answer_forked :
    ∃ s b, Reach ⟨"c"⟩ ∅ (·.automaton = .forked) s ∧ (⟨.forked, 1⟩, .ok b) ∈ s.answers ∧ ¬ b.size ≤ 1 ∧
      ∃ c' b', (c', .ok b') ∈ s.answers ∧ b'.size = b.size ∧ b'.size ≤ c'.limit := by
  have h₀ : Reach ⟨"c"⟩ ∅ (·.automaton = .forked) ⟨∅, [], []⟩ := .start
  obtain ⟨s₁, h₁, hfiles, -, hanswers₁⟩ := h₀.call (c := ⟨.forked, 4⟩) rfl
  obtain ⟨s, h, -, -, hanswers⟩ := h₁.call (c := ⟨.forked, 1⟩) rfl
  rw [hanswers₁] at hanswers
  have hsecond : (Automaton.forked.determinizeCached ⟨"c"⟩ 1 s₁.files).result.toOption.map Automaton.size =
      some 4 := by
    rw [hfiles]
    decide +kernel
  obtain ⟨b, hb, hsize⟩ := Option.map_eq_some_iff.1 hsecond
  have hm : (⟨.forked, 1⟩, .ok b) ∈ s.answers := by
    rw [hanswers, ← toOption_eq_some.1 hb]
    exact List.mem_cons_self
  have hforked : ∀ c r, (c, r) ∈ s.answers → c.automaton = .forked := by
    intro c r hm
    rw [hanswers] at hm
    simp only [List.mem_cons, List.not_mem_nil, or_false, Prod.mk.injEq] at hm
    rcases hm with ⟨rfl, -⟩ | ⟨rfl, -⟩ <;> rfl
  have ht : ∀ content, (∅ : FileTree).find ⟨"c"⟩ ≠ .ok (.file content) := by
    intro content
    have hfind : (∅ : FileTree).find ⟨"c"⟩ = .error .noEntry := by decide +kernel
    rw [hfind]
    exact nofun
  have hstorable : ∀ c d, (c, .ok d.automaton) ∈ s.answers → c.automaton.determinize c.limit = .ok d →
      d.automaton.Storable := by
    intro c d hm hd
    exact storable_determinize_forked (hforked c _ hm ▸ hd)
  obtain ⟨-, hstored, -⟩ := size_answer h
  obtain ⟨c', b', hm', -, heq, hle⟩ := hstored ht
    (fun c c' r r' hc hc' _ => by rw [hforked c r hc, hforked c' r' hc']; simp [Automaton.beq_iff])
    hstorable _ _ hm (by decide)
  exact ⟨s, b, h, hm, by omega, c', b', hm', heq, hle⟩

/-- A call with room for one state is answered with four, which a call with more room has stored. -/
theorem answer_above_ceiling :
    let first := Automaton.forked.determinizeCached ⟨"c"⟩ 4 ∅
    let second := Automaton.forked.determinizeCached ⟨"c"⟩ 1 first.files
    Automaton.forked.isDeterministic = false ∧ second.result.toOption.map Automaton.size = some 4 := by
  refine ⟨by decide, ?_⟩
  decide +kernel

end Cache

end FiniteAutomata
