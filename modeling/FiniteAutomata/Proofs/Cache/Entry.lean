import FiniteAutomata.Cache.Store
import FiniteAutomata.Proofs.Automaton.Encoding
import FiniteAutomata.Proofs.Files.Writing

/-!
# Reading cache entries

An entry that is written is read back, its automaton as far as automata are (`CacheEntry.decode?_encode`).
After an automaton was stored, whether this succeeded or not, the file at its path is absent or holds just
its entry (`FileTree.find_saveCached`).
-/
namespace FiniteAutomata

open Cbor

theorem reads_digest (d : Digest) : Reads Digest.read d.encode d := by
  have h : Reads (readTuple readByte some 32) d.encode d.bytes :=
    reads_tuple d.length_eq (by decide) fun b _ => reads_byte b
  intro rest
  have hbytes : Digest.ofBytes? d.bytes = some d := dif_pos d.length_eq
  simp [Digest.read, h rest, hbytes]

namespace CacheEntry

/-- The part of an entry that a key names. -/
def part (e : CacheEntry) : (k : EntryKey) → k.Part
  | .fingerprint => e.fingerprint
  | .automaton => e.automaton

/-- The entry that is read from a written one. -/
def reread (e : CacheEntry) : CacheEntry := { e with automaton := e.automaton.reread }

variable {e : CacheEntry}

theorem reads_part (h : e.automaton.Storable) (k : EntryKey) :
    Reads k.read (e.partBytes k) (e.reread.part k) := by
  cases k with
  | fingerprint => exact reads_digest e.fingerprint
  | automaton => exact h.reads (maxLevels - 1)

theorem reads_fields (h : e.automaton.Storable) :
    Reads (readRecord EntryKey.ofText? EntryKey.read (maxLevels - 1)) e.encode
      (EntryKey.all.map fun k => ⟨k, e.reread.part k⟩) :=
  reads_record (maxLevels - 1) (by decide) (by decide) (by decide) fun k _ => reads_part h k

/-- **A written entry is read back.** -/
theorem decode?_encode (h : e.automaton.Storable) (rest : List UInt8) :
    decode? (e.encode ++ rest) = some e.reread := by
  rw [decode?, reads_fields h rest]
  rfl

end CacheEntry

namespace FileTree

variable {t : FileTree} {p : Path} {fp : Digest} {a : Automaton} {content : List UInt8}

/-- **After an automaton was stored, the file is absent or holds just its entry.** -/
theorem find_saveCached (h : (t.saveCached p fp a).1.find p = .ok (.file content)) :
    content = (CacheEntry.mk fp a).encode := by
  unfold saveCached at h
  split at h
  · rename_i u e hparent
    exact absurd h (find_ne_of_makeParent_eq_error hparent)
  · split at h
    · rename_i hwrite
      rw [find_write hwrite] at h
      cases h
      rfl
    · rename_i hwrite
      exact absurd h (find_ne_of_write_eq_error hwrite)

/-- The directories of the file can be made, and the file can be written. -/
def Writable (t : FileTree) (p : Path) : Prop :=
  ∃ u, t.makeParent p = (u, .ok ()) ∧ ∃ content v, u.write p content = .ok v

/-- Storing an automaton changes no other file. -/
theorem node?_saveCached {m : Place} (hm : (t.saveCached p fp a).1.locate p ≠ .ok m) :
    (t.saveCached p fp a).1.node? m = some (.file content) ↔ t.node? m = some (.file content) := by
  unfold saveCached at hm ⊢
  split
  · rename_i hparent
    exact sameFiles_makeParent hparent m content
  · rename_i u hparent
    rw [hparent] at hm
    simp only at hm
    split
    · rename_i v hwrite
      rw [hwrite] at hm
      simp only at hm
      rw [locate_of_write hwrite] at hm
      obtain ⟨l, hl, -⟩ := write_eq_ok.1 hwrite
      have hne : m ≠ l := fun e => hm (e ▸ hl)
      rw [node?_write_of_ne hl hwrite hne]
      exact sameFiles_makeParent hparent m content
    · exact sameFiles_makeParent hparent m content

/-- Where the file can be written, it holds the entry afterwards. -/
theorem Writable.find_saveCached (h : t.Writable p) (fp : Digest) (a : Automaton) :
    (t.saveCached p fp a).1.find p = .ok (.file (CacheEntry.mk fp a).encode) := by
  obtain ⟨u, hparent, content, v, hwrite⟩ := h
  obtain ⟨l, hl, hn, hs, -⟩ := write_eq_ok.1 hwrite
  have hwrite' : u.write p (CacheEntry.mk fp a).encode = .ok (u.put l (.file (CacheEntry.mk fp a).encode)) :=
    write_eq_ok.2 ⟨l, hl, hn, hs, rfl⟩
  simp only [saveCached, hparent, hwrite']
  exact find_write hwrite'

/-- An automaton that is found was stored under the fingerprint. -/
theorem loadCached_eq_some : t.loadCached p fp = .ok (some a) ↔
    ∃ content, t.find p = .ok (.file content) ∧ CacheEntry.decode? content = some ⟨fp, a⟩ := by
  unfold loadCached
  constructor
  · intro h
    split at h
    · cases h
    · cases h
    · cases h
    · rename_i content hfind
      unfold cachedIn at h
      split at h
      · cases h
      · rename_i e hdecode
        split at h
        · rename_i hfp
          subst hfp
          cases h
          exact ⟨content, hfind, hdecode⟩
        · cases h
  · rintro ⟨content, hfind, hdecode⟩
    simp [hfind, cachedIn, hdecode]

end FileTree

end FiniteAutomata
