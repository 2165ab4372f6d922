import FiniteAutomata.Alphabet
import FiniteAutomata.Cbor.Item

/-!
# Alphabets in binary form

An alphabet is the array of its ranges, a range the array of its two bounds. A bound that has a
symbol is a map of one entry, whose key tells whether the symbol is included; a bound without a
symbol is a text. The ranges that are read may overlap, touch or be empty.
-/
namespace FiniteAutomata

open Cbor

/-- The written form of a bound. -/
def Bound.encode : Bound → List UInt8
  | .included c => mapBytes textBytes textBytes [("Included", String.singleton c)]
  | .excluded c => mapBytes textBytes textBytes [("Excluded", String.singleton c)]
  | .unbounded => textBytes "Unbounded"

/-- Reads what follows the name of a bound. -/
def Bound.readNamed (name : Option String) : Reader Bound := fun bs =>
  match name with
  | some "Included" => (readChar bs).map fun (c, rest) => (.included c, rest)
  | some "Excluded" => (readChar bs).map fun (c, rest) => (.excluded c, rest)
  | some "Unbounded" => some (.unbounded, bs)
  | _ => none

/--
Reads a bound: its name, as the key of a map of one entry or as a text, and its symbol if it has
one.
-/
def Bound.read : Reader Bound := fun bs => do
  let (head, rest) ← readUntagged bs
  match head with
  | .map (some 1) =>
    let (name, rest) ← readKey rest
    readNamed name rest
  | .text _ =>
    let (name, rest) ← readKeyContent head rest
    readNamed name rest
  | _ => none

/-- The written form of a range. -/
def SymbolRange.encode (r : SymbolRange) : List UInt8 := arrayBytes Bound.encode [r.lower, r.upper]

/-- Reads a range. -/
def SymbolRange.read : Reader SymbolRange := fun bs => do
  match ← readTuple Bound.read (fun _ => none) 2 bs with
  | ([lower, upper], rest) => some (⟨lower, upper⟩, rest)
  | _ => none

/-- The written form of an alphabet. -/
def Alphabet.encode (a : Alphabet) : List UInt8 := arrayBytes SymbolRange.encode a.ranges

/-- Reads an alphabet. -/
def Alphabet.read : Reader Alphabet := fun bs =>
  (readArray SymbolRange.read (fun _ => none) bs).map fun (rs, rest) => (.ofRanges rs, rest)

end FiniteAutomata
