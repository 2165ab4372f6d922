import FiniteAutomata.Files.Path
import FiniteAutomata.Text.Utf8

/-!
# The default place of cache files

Cache files are kept below a directory named by one of two environment variables, the first one that
is set. Its value must be valid UTF-8.
-/
namespace FiniteAutomata

/-- Environment variables and their values. -/
structure Environment where
  bindings : List (String × List UInt8)
  deriving Inhabited

namespace Environment

/-- The value of a variable. -/
def get? (env : Environment) (name : String) : Option (List UInt8) := env.bindings.lookup name

/-- The variables that may name the directory of cache files, the most important one first. -/
def cacheVariables : List String := ["REGULAR_AUTOMATON_CACHE_DIR", "CARGO_TARGET_DIR"]

/-- The directory of cache files, none when it is not valid UTF-8. -/
def cacheDirectory? (env : Environment) : Option String :=
  match cacheVariables.findSome? env.get? with
  | some value => ofUtf8? value
  | none => some "target"

/-- The default path of the cache file for a name. -/
def defaultCachePath? (env : Environment) (name : String) : Option Path :=
  env.cacheDirectory?.map fun directory =>
    ⟨directory ++ "/regular-automaton/" ++ name ++ ".automaton.cbor"⟩

end Environment

end FiniteAutomata
