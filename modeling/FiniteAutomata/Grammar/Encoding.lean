import FiniteAutomata.Automaton.Encoding
import FiniteAutomata.Grammar.Basic

/-!
# Grammars in binary form

A grammar is a record of its four parts. The productions are a map from names to arrays of texts, in
which the last value of a repeated name counts.
-/
namespace FiniteAutomata

open Cbor

/-- The keys of the record of a grammar. -/
inductive GrammarKey where
  | nonTerminals
  | terminals
  | productions
  | start
  deriving DecidableEq

namespace GrammarKey

/-- The spelling of a key. -/
def text : GrammarKey → String
  | nonTerminals => "non_terminals"
  | terminals => "terminals"
  | productions => "productions"
  | start => "start"

/-- The keys in the order in which they are written. -/
def all : List GrammarKey := [nonTerminals, terminals, productions, start]

/-- The key that a text spells. -/
def ofText? (s : String) : Option GrammarKey := all.find? (·.text == s)

/-- The type of the part that a key names. -/
def Part : GrammarKey → Type
  | nonTerminals => List String
  | terminals => Alphabet
  | productions => Table String (List String)
  | start => String

/-- Reads the part that a key names. -/
def read : (k : GrammarKey) → Reader k.Part
  | nonTerminals => readNames
  | terminals => Alphabet.read
  | productions => fun bs =>
    (readMap readText (fun _ => readNames) bs).map fun (es, rest) => (.ofList es, rest)
  | start => readText

end GrammarKey

namespace Grammar

/-- The written form of the part that a key names. -/
def partBytes (g : Grammar) : GrammarKey → List UInt8
  | .nonTerminals => nameBytes g.nonTerminals
  | .terminals => g.terminals.encode
  | .productions => mapBytes textBytes nameBytes g.productions.entries
  | .start => textBytes g.start

/-- The written form of a grammar. -/
def encode (g : Grammar) : List UInt8 :=
  recordBytes (GrammarKey.all.map fun k => (k.text, g.partBytes k))

/-- The grammar of the fields of its record. -/
def ofFields? (fields : List ((k : GrammarKey) × k.Part)) : Option Grammar := do
  return {
    nonTerminals := ← field? fields .nonTerminals
    terminals := ← field? fields .terminals
    productions := ← field? fields .productions
    start := ← field? fields .start }

/-- The grammar at the front of some bytes. -/
def decode? (bs : List UInt8) : Option Grammar := do
  let (fields, _) ← readRecord GrammarKey.ofText? GrammarKey.read (maxLevels - 1) bs
  ofFields? fields

end Grammar

end FiniteAutomata
