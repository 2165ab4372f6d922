import FiniteAutomata.Alphabet.Encoding
import FiniteAutomata.Automaton.Basic
import FiniteAutomata.Cbor.Record

/-!
# Automata in binary form

An automaton is a record of its six parts. Sets of states are arrays, the transitions a map from
states to maps from labels, where null is the empty label; of a repeated key in these maps the last
value counts. Nothing is checked about the states, and the bytes after the record are ignored.
-/
namespace FiniteAutomata

open Cbor

/-- The written form of a set of states. -/
def StateSet.encode (s : StateSet) : List UInt8 := arrayBytes unsignedBytes s.toList

/-- Reads a set of states. -/
def StateSet.read : Reader StateSet := fun bs =>
  (readArray readUnsigned (fun b => some b.toNat) bs).map fun (qs, rest) => (.ofList qs, rest)

/-- The written form of a label. -/
def labelBytes : Label → List UInt8
  | none => nullBytes
  | some c => textBytes (String.singleton c)

/-- Reads a label. -/
def readLabel : Reader Label := readOptional readChar

/-- Reads the transitions out of one state. -/
def readRow : Reader Row := fun bs =>
  (readMap readLabel (fun _ => StateSet.read) bs).map fun (es, rest) => (.ofList es, rest)

/-- The written form of the transitions out of one state. -/
def rowBytes (row : Row) : List UInt8 := mapBytes labelBytes StateSet.encode row.entries

/-- Reads names. -/
def readNames : Reader (List String) := readArray readText fun _ => none

/-- The written form of names. -/
def nameBytes (names : List String) : List UInt8 := arrayBytes textBytes names

/-- The keys of the record of an automaton. -/
inductive AutomatonKey where
  | names
  | alphabet
  | states
  | initial
  | finals
  | transitions
  deriving DecidableEq

namespace AutomatonKey

/-- The spelling of a key. -/
def text : AutomatonKey → String
  | names => "names"
  | alphabet => "alphabet"
  | states => "states"
  | initial => "initial_state"
  | finals => "final_states"
  | transitions => "transitions"

/-- The keys in the order in which they are written. -/
def all : List AutomatonKey := [names, alphabet, states, initial, finals, transitions]

/-- The key that a text spells. -/
def ofText? (s : String) : Option AutomatonKey := all.find? (·.text == s)

/-- The type of the part that a key names. -/
def Part : AutomatonKey → Type
  | names => List String
  | alphabet => Alphabet
  | states => StateSet
  | initial => Nat
  | finals => StateSet
  | transitions => Table Nat Row

/-- Reads the part that a key names. -/
def read : (k : AutomatonKey) → Reader k.Part
  | names => readNames
  | alphabet => Alphabet.read
  | states => StateSet.read
  | initial => readUnsigned
  | finals => StateSet.read
  | transitions => fun bs =>
    (readMap readUnsigned (fun _ => readRow) bs).map fun (es, rest) => (.ofList es, rest)

end AutomatonKey

namespace Automaton

/-- The written form of the part that a key names. -/
def partBytes (a : Automaton) : AutomatonKey → List UInt8
  | .names => nameBytes a.names
  | .alphabet => a.alphabet.encode
  | .states => a.states.encode
  | .initial => unsignedBytes a.initial
  | .finals => a.finals.encode
  | .transitions => mapBytes unsignedBytes rowBytes a.transitions.entries

/-- The written form of an automaton. -/
def encode (a : Automaton) : List UInt8 :=
  recordBytes (AutomatonKey.all.map fun k => (k.text, a.partBytes k))

/-- The automaton of the fields of its record. -/
def ofFields? (fields : List ((k : AutomatonKey) × k.Part)) : Option Automaton := do
  return {
    names := ← field? fields .names
    alphabet := ← field? fields .alphabet
    states := ← field? fields .states
    initial := ← field? fields .initial
    finals := ← field? fields .finals
    transitions := ← field? fields .transitions }

/-- Reads an automaton, whose record and what is in it has at most `levels` levels. -/
def read (levels : Nat) : Reader Automaton := fun bs => do
  let (fields, rest) ← readRecord AutomatonKey.ofText? AutomatonKey.read (levels - 1) bs
  return (← ofFields? fields, rest)

/-- The automaton at the front of some bytes. -/
def decode? (bs : List UInt8) : Option Automaton := (read maxLevels bs).map Prod.fst

end Automaton

end FiniteAutomata
