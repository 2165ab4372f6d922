import FiniteAutomata.Proofs.Cache.History
import FiniteAutomata.Proofs.Subset.Idempotence
import FiniteAutomata.Proofs.Subset.Language

/-!
# Damaged cache files

An entry is trusted when its fingerprint is the right one: the automaton in it is the answer, unchecked. All
other content, and a file that cannot be read, is as good as none. Main theorem `answer_of_content`. So a
cache that was damaged is harmless unless it still holds an entry for the fingerprint. One byte that changes
after the fingerprint may change the language of the answer (`answer_altered`).
-/
namespace FiniteAutomata

namespace Automaton

/-- A valid deterministic automaton that accepts the same words. -/
structure IsDeterminizationOf (b a : Automaton) : Prop where
  valid : b.validate = .ok ()
  deterministic : b.isDeterministic = true
  accepts : ∀ w, b.accepts w = a.accepts w

variable {a b : Automaton} {limit : Nat} {d : Determinized} {p : Path} {t : FileTree}

/-! ## Results, and results that are read again -/

theorem isDeterminizationOf_determinize (h : a.determinize limit = .ok d) :
    d.automaton.IsDeterminizationOf a := by
  obtain ⟨hv, hdet⟩ := valid_deterministic_determinize h
  refine ⟨validate_eq_ok_iff.2 hv, hdet, fun w => ?_⟩
  obtain ⟨-, ⟨-, rfl⟩ | ⟨-, k, hk, rfl⟩⟩ := determinize_cases h
  · rfl
  · exact Construction.accepts_construct hk w

/-- What an uncached run answers is a determinization. -/
theorem isDeterminizationOf_of_map_eq_ok (h : (a.determinize limit).map Determinized.automaton = .ok b) :
    b.IsDeterminizationOf a := by
  cases hd : a.determinize limit with
  | error e =>
    rw [hd] at h
    cases h
  | ok d =>
    rw [hd] at h
    cases h
    exact isDeterminizationOf_determinize hd

/-- An alphabet that is read again has the symbols that it had. -/
theorem Valid.reread (h : a.Valid) : a.reread.Valid := by
  refine ⟨h.initial, h.finals, h.sources, fun q label targets ht => ?_⟩
  obtain ⟨c, hc, hcont, htargets⟩ := h.labels q label targets ht
  have hmem : c ∈ a.alphabet.reread.symbols :=
    Alphabet.mem_symbols_reread.2 (Alphabet.mem_symbols_of_contains hcont)
  exact ⟨c, hc, (Alphabet.contains_iff_mem_symbols (Alphabet.apart_reread a.alphabet)).2 hmem, htargets⟩

theorem IsDeterminizationOf.reread (h : b.IsDeterminizationOf a) : b.reread.IsDeterminizationOf a := by
  have hv : b.Valid := validate_eq_ok_iff.1 h.valid
  refine ⟨validate_eq_ok_iff.2 hv.reread, h.deterministic, fun w => ?_⟩
  rw [← h.accepts w]
  exact hv.reread.acceptsFrom_congr hv rfl rfl _ w

/-! ## What a file is good for -/

/-- Without an entry for the fingerprint the automaton is determinized, and the result is stored. -/
theorem run_of_no_entry (hv : a.Valid) (h : ∀ b, t.loadCached p a.fingerprint ≠ .ok (some b)) (limit : Nat) :
    let run := a.determinizeCached p limit t
    (run.result, run.files) =
      match a.determinize limit with
      | .error e => (.error e, t)
      | .ok d => (.ok d.automaton, (t.saveCached p a.fingerprint d.automaton).1) := by
  have hsave := Cache.determinizeAndSave_eq ⟨a, limit⟩ p t
  unfold determinizeCached
  rw [problem?_eq_none_iff.2 hv]
  cases hl : t.loadCached p a.fingerprint with
  | error e => exact hsave
  | ok found =>
    cases found with
    | none => exact hsave
    | some b => exact absurd hl (h b)

/-- Without an entry for the fingerprint the answer is that of an uncached run. -/
theorem result_of_no_entry (hv : a.Valid) (h : ∀ b, t.loadCached p a.fingerprint ≠ .ok (some b)) :
    (a.determinizeCached p limit t).result = (a.determinize limit).map Determinized.automaton := by
  refine (congrArg Prod.fst (run_of_no_entry hv h limit)).trans ?_
  cases a.determinize limit <;> rfl

/-- The automaton of an entry for the fingerprint is the answer. -/
theorem result_of_entry (hv : a.Valid) (h : t.loadCached p a.fingerprint = .ok (some b)) :
    (a.determinizeCached p limit t).result = .ok b := by
  unfold determinizeCached
  rw [problem?_eq_none_iff.2 hv, h]

/-- **What a cached determinization answers, whatever is in the file.** An entry for the fingerprint of the
automaton is answered with, as it is and for every limit. Otherwise the answer is that of an uncached run, and
so is a determinization if there is one. An entry that was stored for a determinization of the automaton
gives one too, whatever follows it. -/
theorem answer_of_content (hv : a.validate = .ok ()) (p : Path) (limit : Nat) (t : FileTree) :
    let answer := (a.determinizeCached p limit t).result
    (∀ content b, t.find p = .ok (.file content) →
      CacheEntry.decode? content = some ⟨a.fingerprint, b⟩ → answer = .ok b) ∧
    ((∀ content b, t.find p = .ok (.file content) →
        CacheEntry.decode? content ≠ some ⟨a.fingerprint, b⟩) →
      answer = (a.determinize limit).map Determinized.automaton ∧
        ∀ b, answer = .ok b → b.IsDeterminizationOf a) ∧
    ∀ limit' d rest, a.determinize limit' = .ok d → d.automaton.Storable →
      t.find p = .ok (.file ((CacheEntry.mk a.fingerprint d.automaton).encode ++ rest)) →
      ∃ b, answer = .ok b ∧ b.IsDeterminizationOf a := by
  have hv : a.Valid := validate_eq_ok_iff.1 hv
  have hentry : ∀ content b, t.find p = .ok (.file content) →
      CacheEntry.decode? content = some ⟨a.fingerprint, b⟩ →
      (a.determinizeCached p limit t).result = .ok b := fun content b hfind hdecode =>
    result_of_entry hv (FileTree.loadCached_eq_some.2 ⟨content, hfind, hdecode⟩)
  refine ⟨hentry, fun hnone => ?_, fun limit' d rest hd hstorable hfind => ?_⟩
  · have hload : ∀ b, t.loadCached p a.fingerprint ≠ .ok (some b) := by
      intro b hl
      obtain ⟨content, hfind, hdecode⟩ := FileTree.loadCached_eq_some.1 hl
      exact hnone content b hfind hdecode
    refine ⟨result_of_no_entry hv hload, fun b hb => ?_⟩
    exact isDeterminizationOf_of_map_eq_ok ((result_of_no_entry hv hload).symm.trans hb)
  · have hdecode := CacheEntry.decode?_encode (e := ⟨a.fingerprint, d.automaton⟩) hstorable rest
    exact ⟨_, hentry _ _ hfind hdecode, (isDeterminizationOf_determinize hd).reread⟩

/-- A file without an entry, and a stored entry with bytes after it. -/
theorem answer_of_content_forked :
    (∃ t, (∅ : FileTree).write ⟨"c"⟩ [162] = .ok t ∧
      (forked.determinizeCached ⟨"c"⟩ 4 t).result = (forked.determinize 4).map Determinized.automaton) ∧
    ∃ d t b, forked.determinize 4 = .ok d ∧
      (∅ : FileTree).write ⟨"c"⟩ ((CacheEntry.mk forked.fingerprint d.automaton).encode ++ [0, 1]) = .ok t ∧
      (forked.determinizeCached ⟨"c"⟩ 4 t).result = .ok b ∧ b.IsDeterminizationOf forked := by
  have hvalid : forked.validate = .ok () := rfl
  obtain ⟨d, hd⟩ := determinize_forked
  have hwrite : ∀ content, ∃ t, (∅ : FileTree).write ⟨"c"⟩ content = .ok t := fun content => ⟨_, rfl⟩
  constructor
  · obtain ⟨t, ht⟩ := hwrite [162]
    obtain ⟨-, hnone, -⟩ := answer_of_content hvalid ⟨"c"⟩ 4 t
    refine ⟨t, ht, (hnone fun content b hfind => ?_).1⟩
    rw [FileTree.find_write ht] at hfind
    cases hfind
    have hbroken : CacheEntry.decode? [162] = none := by decide +kernel
    rw [hbroken]
    exact nofun
  · obtain ⟨t, ht⟩ := hwrite ((CacheEntry.mk forked.fingerprint d.automaton).encode ++ [0, 1])
    obtain ⟨-, -, hstored⟩ := answer_of_content hvalid ⟨"c"⟩ 4 t
    obtain ⟨b, hb, hdet⟩ := hstored 4 d [0, 1] hd (Cache.storable_determinize_forked hd) (FileTree.find_write ht)
    exact ⟨d, t, b, hd, ht, hb, hdet⟩

/-- The byte that stands for the final state is changed. The entry still has the right fingerprint. -/
theorem answer_altered :
    forked.validate = .ok () ∧ (do
      let d ← (forked.determinize 4).toOption
      let content := (CacheEntry.mk forked.fingerprint d.automaton).encode.set 176 0
      let t ← ((∅ : FileTree).write ⟨"c"⟩ content).toOption
      let b ← (forked.determinizeCached ⟨"c"⟩ 4 t).result.toOption
      return (forked.accepts ['b'], d.automaton.accepts ['b'], b.accepts ['b'])) =
        some (true, true, false) := by
  refine ⟨rfl, ?_⟩
  decide +kernel

end Automaton

end FiniteAutomata
