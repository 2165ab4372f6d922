import FiniteAutomata.Automaton.Encoding
import FiniteAutomata.Digest.Sha256

/-!
# Cache entries

An entry holds an automaton with the fingerprint of the automaton that it was computed from. Its
binary form is a record, in which the fingerprint is an array of numbers.
-/
namespace FiniteAutomata

open Cbor

/-- An automaton, with the fingerprint of the one that it was computed from. -/
structure CacheEntry where
  fingerprint : Digest
  automaton : Automaton

/-- The keys of the record of an entry. -/
inductive EntryKey where
  | fingerprint
  | automaton
  deriving DecidableEq

namespace EntryKey

/-- The spelling of a key. -/
def text : EntryKey → String
  | fingerprint => "hash"
  | automaton => "automaton"

/-- The keys in the order in which they are written. -/
def all : List EntryKey := [fingerprint, automaton]

/-- The key that a text spells. -/
def ofText? (s : String) : Option EntryKey := all.find? (·.text == s)

/-- The type of the part that a key names. -/
def Part : EntryKey → Type
  | fingerprint => Digest
  | automaton => Automaton

end EntryKey

/-- The written form of a digest. -/
def Digest.encode (d : Digest) : List UInt8 := arrayBytes (fun b => unsignedBytes b.toNat) d.bytes

/-- Reads a digest. -/
def Digest.read : Reader Digest := fun bs => do
  let (content, rest) ← readTuple readByte some 32 bs
  return (← ofBytes? content, rest)

/-- Reads the part that a key names. -/
def EntryKey.read : (k : EntryKey) → Reader k.Part
  | fingerprint => Digest.read
  | automaton => Automaton.read (maxLevels - 1)

namespace CacheEntry

/-- The written form of the part that a key names. -/
def partBytes (e : CacheEntry) : EntryKey → List UInt8
  | .fingerprint => e.fingerprint.encode
  | .automaton => e.automaton.encode

/-- The written form of an entry. -/
def encode (e : CacheEntry) : List UInt8 :=
  recordBytes (EntryKey.all.map fun k => (k.text, e.partBytes k))

/-- The entry at the front of some bytes. -/
def decode? (bs : List UInt8) : Option CacheEntry := do
  let (fields, _) ← readRecord EntryKey.ofText? EntryKey.read (maxLevels - 1) bs
  return { fingerprint := ← field? fields .fingerprint, automaton := ← field? fields .automaton }

end CacheEntry

end FiniteAutomata
