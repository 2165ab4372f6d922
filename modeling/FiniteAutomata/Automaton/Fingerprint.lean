import FiniteAutomata.Automaton.Encoding
import FiniteAutomata.Digest.Sha256

/-!
# Fingerprints

The fingerprint of an automaton is the digest of its binary form, so equal automata written alike
have equal fingerprints.
-/
namespace FiniteAutomata

/-- The digest of the binary form of an automaton. -/
def Automaton.fingerprint (a : Automaton) : Digest := sha256 a.encode

end FiniteAutomata
