import FiniteAutomata.Automaton.Fingerprint
import FiniteAutomata.Proofs.Alphabet.Rereading
import FiniteAutomata.Proofs.Automaton.Equality
import FiniteAutomata.Proofs.Cbor.Reading

/-!
# Reading written automata

Alphabets, sets of states, rows and whole automata are read back from their written forms, with whatever
follows. Only the alphabet may change on the way: its ranges are inserted one after the other again. Main
statement `Automaton.Storable.reads`.
-/
namespace FiniteAutomata

open Cbor

/-! ## Alphabets -/

/-- A bound that has a symbol is read by its name. -/
theorem read_namedBound {name : String} (h : (utf8Bytes name).length ≤ maxKeyLength) (c : Char)
    (rest : List UInt8) :
    Bound.read (mapBytes textBytes textBytes [(name, String.singleton c)] ++ rest) =
      Bound.readNamed (some name) (textBytes (String.singleton c) ++ rest) := by
  have hkey := reads_key h (textBytes (String.singleton c) ++ rest)
  have hhead := readUntagged_headBytes (by decide : 5 < 6) (by decide : 1 < UInt64.size)
    (textBytes name ++ (textBytes (String.singleton c) ++ rest))
  simp [Bound.read, mapBytes, List.append_assoc, hhead, Head.ofParts?, hkey]

theorem reads_bound (b : Bound) : Reads Bound.read b.encode b := by
  intro rest
  cases b with
  | included c =>
    rw [Bound.encode, read_namedBound (by decide)]
    simp [Bound.readNamed, reads_char c rest]
  | excluded c =>
    rw [Bound.encode, read_namedBound (by decide)]
    simp [Bound.readNamed, reads_char c rest]
  | unbounded =>
    have hhead := readUntagged_headBytes (by decide : 3 < 6)
      (by decide : (utf8Bytes "Unbounded").length < UInt64.size) (utf8Bytes "Unbounded" ++ rest)
    have hlen : (utf8Bytes "Unbounded").length ≤ maxKeyLength := by decide
    simp [Bound.read, Bound.encode, textBytes, List.append_assoc, hhead, Head.ofParts?, readKeyContent,
      hlen, takeBytes?_append _ rest, Bound.readNamed]

theorem reads_symbolRange (r : SymbolRange) : Reads SymbolRange.read r.encode r := by
  intro rest
  have hlen : [r.lower, r.upper].length = 2 := rfl
  have h : Reads (readTuple Bound.read (fun _ => none) 2) r.encode [r.lower, r.upper] :=
    reads_tuple hlen (by decide) fun b _ => reads_bound b
  simp [SymbolRange.read, h rest]

theorem reads_ranges (a : Alphabet) :
    Reads (readArray SymbolRange.read fun _ => none) a.encode a.ranges :=
  reads_array (Nat.lt_of_le_of_lt a.length_ranges_le (by decide)) fun r _ => reads_symbolRange r

theorem reads_alphabet (a : Alphabet) : Reads Alphabet.read a.encode a.reread :=
  (reads_ranges a).map Alphabet.ofRanges

/-! ## Sets and rows -/

/-- The number of members, and each of them, is below `2 ^ 64`. -/
structure StateSet.Storable (s : StateSet) : Prop where
  size : s.size < UInt64.size
  members : ∀ q ∈ s, q < UInt64.size

instance (s : StateSet) : Decidable s.Storable :=
  decidable_of_iff (s.size < UInt64.size ∧ ∀ q ∈ s.toList, q < UInt64.size)
    ⟨fun ⟨hsize, hmembers⟩ => ⟨hsize, hmembers⟩, fun h => ⟨h.size, h.members⟩⟩

theorem reads_stateSet {s : StateSet} (h : s.Storable) : Reads StateSet.read s.encode s := by
  have hread : Reads (readArray readUnsigned fun b => some b.toNat) s.encode s.toList :=
    reads_array h.size fun q hq => reads_unsigned (h.members q hq)
  have := hread.map StateSet.ofList
  rwa [s.ofList_toList] at this

theorem reads_label (l : Label) : Reads readLabel (labelBytes l) l := by
  intro rest
  cases l with
  | none => rfl
  | some c =>
    have hread := reads_char c rest
    have hsize : (utf8Bytes (String.singleton c)).length < UInt64.size :=
      Nat.lt_of_le_of_lt (length_utf8Bytes_singleton_le c) (by decide)
    have hhead := readHead_headBytes (by decide : 3 < 7) hsize (utf8Bytes (String.singleton c) ++ rest)
    have e : labelBytes (some c) ++ rest = headBytes 3 (utf8Bytes (String.singleton c)).length ++
        (utf8Bytes (String.singleton c) ++ rest) := by
      rw [labelBytes, textBytes, List.append_assoc]
    rw [readLabel, readOptional, labelBytes, hread, ← labelBytes, e, hhead]
    rfl

theorem reads_row {row : Row} (hn : row.size < UInt64.size)
    (ht : ∀ e ∈ row.entries, e.2.Storable) : Reads readRow (rowBytes row) row := by
  have hread : Reads (readMap readLabel fun _ => StateSet.read) (rowBytes row) row.entries :=
    reads_map hn (fun e _ => reads_label e.1) fun e he => reads_stateSet (ht e he)
  have := hread.map Table.ofList
  rwa [row.ofList_entries] at this

theorem reads_names {names : List String} (hn : names.length < UInt64.size)
    (h : ∀ n ∈ names, (utf8Bytes n).length < UInt64.size) : Reads readNames (nameBytes names) names :=
  reads_array hn fun n hm => reads_text (h n hm)

/-! ## Automata -/

namespace Automaton

/-- The numbers of names, states and transitions, their lengths and all handles are below `2 ^ 64`. -/
structure Storable (a : Automaton) : Prop where
  names : a.names.length < UInt64.size
  lengths : ∀ n ∈ a.names, (utf8Bytes n).length < UInt64.size
  states : a.states.Storable
  initial : a.initial < UInt64.size
  finals : a.finals.Storable
  sources : a.transitions.size < UInt64.size
  handles : ∀ e ∈ a.transitions.entries, e.1 < UInt64.size
  labels : ∀ e ∈ a.transitions.entries, e.2.size < UInt64.size
  targets : ∀ e ∈ a.transitions.entries, ∀ l ∈ e.2.entries, l.2.Storable

instance (a : Automaton) : Decidable a.Storable :=
  decidable_of_iff (a.names.length < UInt64.size ∧ (∀ n ∈ a.names, (utf8Bytes n).length < UInt64.size) ∧
      a.states.Storable ∧ a.initial < UInt64.size ∧ a.finals.Storable ∧
      a.transitions.size < UInt64.size ∧ ∀ e ∈ a.transitions.entries,
        e.1 < UInt64.size ∧ e.2.size < UInt64.size ∧ ∀ l ∈ e.2.entries, l.2.Storable)
    ⟨fun ⟨hnames, hlengths, hstates, hinitial, hfinals, hsources, hrows⟩ =>
        ⟨hnames, hlengths, hstates, hinitial, hfinals, hsources, fun e he => (hrows e he).1,
          fun e he => (hrows e he).2.1, fun e he => (hrows e he).2.2⟩,
      fun h => ⟨h.names, h.lengths, h.states, h.initial, h.finals, h.sources, fun e he =>
        ⟨h.handles e he, h.labels e he, h.targets e he⟩⟩⟩

variable {a b : Automaton}

/-- The automaton that is read from a written one. -/
def reread (a : Automaton) : Automaton := { a with alphabet := a.alphabet.reread }

/-- The part of an automaton that a key names. -/
def part (a : Automaton) : (k : AutomatonKey) → k.Part
  | .names => a.names
  | .alphabet => a.alphabet
  | .states => a.states
  | .initial => a.initial
  | .finals => a.finals
  | .transitions => a.transitions

theorem Storable.reads_transitions (h : a.Storable) :
    Reads (AutomatonKey.read .transitions) (a.partBytes .transitions) (a.part .transitions) := by
  have hread : Reads (readMap readUnsigned fun _ => readRow)
      (mapBytes unsignedBytes rowBytes a.transitions.entries) a.transitions.entries :=
    reads_map h.sources (fun e he => reads_unsigned (h.handles e he))
      fun e he => reads_row (h.labels e he) (h.targets e he)
  have := hread.map Table.ofList
  rwa [a.transitions.ofList_entries] at this

theorem Storable.reads_part (h : a.Storable) (k : AutomatonKey) :
    Reads k.read (a.partBytes k) (a.reread.part k) := by
  cases k with
  | names => exact reads_names h.names h.lengths
  | alphabet => exact reads_alphabet a.alphabet
  | states => exact reads_stateSet h.states
  | initial => exact reads_unsigned h.initial
  | finals => exact reads_stateSet h.finals
  | transitions => exact h.reads_transitions

theorem ofFields?_part (a : Automaton) :
    ofFields? (AutomatonKey.all.map fun k => ⟨k, a.part k⟩) = some a := rfl

/-- **A written automaton is read back**, its alphabet as its ranges are inserted again. -/
theorem Storable.reads (h : a.Storable) (levels : Nat) : Reads (read levels) a.encode a.reread := by
  have hrecord : Reads (readRecord AutomatonKey.ofText? AutomatonKey.read (levels - 1)) a.encode
      (AutomatonKey.all.map fun k => ⟨k, a.reread.part k⟩) :=
    reads_record (levels - 1) (by decide) (by decide) (by decide) fun k _ => h.reads_part k
  intro rest
  rw [read, hrecord rest]
  simp only [Option.bind_eq_bind, Option.bind_some, ofFields?_part]
  rfl

theorem Storable.decode?_encode (h : a.Storable) (rest : List UInt8) :
    decode? (a.encode ++ rest) = some a.reread := by
  rw [decode?, h.reads maxLevels rest, Option.map_some]

end Automaton

end FiniteAutomata
