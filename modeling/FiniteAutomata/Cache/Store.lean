import FiniteAutomata.Cache.Entry
import FiniteAutomata.Files.Tree

/-!
# Cached automata in files

An automaton is looked up in a file under a fingerprint: a file that does not exist and one that
holds an entry for another fingerprint have no answer. Storing an automaton makes the missing
directories and replaces the file.
-/
namespace FiniteAutomata

/-- Why a cache file cannot be used. -/
inductive CacheError where
  | file (error : FileError)
  /-- The content is not an entry. -/
  | malformed
  deriving DecidableEq, Repr

def CacheError.message : CacheError → String
  | .file e => e.message
  | .malformed => "malformed cache entry"

namespace FileTree

/-- The automaton that the content of a file holds under a fingerprint. -/
def cachedIn (fingerprint : Digest) (content : List UInt8) : Except CacheError (Option Automaton) :=
  match CacheEntry.decode? content with
  | none => .error .malformed
  | some e => .ok (if e.fingerprint = fingerprint then some e.automaton else none)

/-- The automaton that a file holds under a fingerprint. -/
def loadCached (t : FileTree) (p : Path) (fingerprint : Digest) :
    Except CacheError (Option Automaton) :=
  match t.find p with
  | .error .noEntry => .ok none
  | .error e => .error (.file e)
  | .ok .directory => .error .malformed
  | .ok (.file content) => cachedIn fingerprint content

/-- Stores an automaton in a file under a fingerprint. -/
def saveCached (t : FileTree) (p : Path) (fingerprint : Digest) (a : Automaton) :
    FileTree × Except FileError Unit :=
  match t.makeParent p with
  | (t, .error e) => (t, .error e)
  | (t, .ok ()) =>
    match t.write p (CacheEntry.mk fingerprint a).encode with
    | .ok t => (t, .ok ())
    | .error e => (t, .error e)

end FileTree

end FiniteAutomata
