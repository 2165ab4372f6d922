import FiniteAutomata.Grammar.Encoding
import FiniteAutomata.Main
import FiniteAutomata.Proofs.Alphabet.Measure
import FiniteAutomata.Proofs.Automaton.Interning
import FiniteAutomata.Proofs.Automaton.NameIndex
import FiniteAutomata.Proofs.Automaton.Runs
import FiniteAutomata.Proofs.Automaton.Violations
import FiniteAutomata.Proofs.Cache.Ceiling
import FiniteAutomata.Proofs.Cache.Effect
import FiniteAutomata.Proofs.Cache.Interruption
import FiniteAutomata.Proofs.Description.ByName
import FiniteAutomata.Proofs.Description.Rearranging
import FiniteAutomata.Proofs.Description.Reprinting
import FiniteAutomata.Proofs.Description.Tokens
import FiniteAutomata.Proofs.Description.Wording
import FiniteAutomata.Proofs.Grammar.Counting
import FiniteAutomata.Proofs.Grammar.Faults
import FiniteAutomata.Proofs.Grammar.Reconversion
import FiniteAutomata.Proofs.Subset.EmptySets
import FiniteAutomata.Proofs.Subset.LeastWords
import FiniteAutomata.Proofs.Subset.ReachablePart
import FiniteAutomata.Proofs.Subset.Turns
