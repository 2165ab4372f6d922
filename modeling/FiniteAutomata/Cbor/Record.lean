import FiniteAutomata.Cbor.Skip

/-!
# Records

A record is a map from texts to values of different types, of which each key says its own. The keys
come in any order and unknown ones are skipped, but a known key may be neither missing nor repeated.
-/
namespace FiniteAutomata.Cbor

variable {κ : Type} {value : κ → Type}

/-- Reads the value of a key, or skips it when the key is unknown. -/
def readField (key? : String → Option κ) (read : (k : κ) → Reader (value k)) (levels : Nat)
    (name : Option String) : Reader (Option ((k : κ) × value k)) := fun bs =>
  match name.bind key? with
  | some k => (read k bs).map fun (v, rest) => (some ⟨k, v⟩, rest)
  | none => (skipItem levels bs).map fun (_, rest) => (none, rest)

/-- Reads the fields of a record. The value of an unknown key has at most `levels` levels. -/
def readRecord (key? : String → Option κ) (read : (k : κ) → Reader (value k)) (levels : Nat) :
    Reader (List ((k : κ) × value k)) := fun bs => do
  let (entries, rest) ← readMap readKey (readField key? read levels) bs
  return (entries.filterMap Prod.snd, rest)

/-- The values of a key among some fields. -/
def valuesOf [DecidableEq κ] (k : κ) : List ((k : κ) × value k) → List (value k)
  | [] => []
  | ⟨l, v⟩ :: fields => if h : l = k then h ▸ v :: valuesOf k fields else valuesOf k fields

/-- The value of a key that occurs exactly once among some fields. -/
def field? [DecidableEq κ] (fields : List ((k : κ) × value k)) (k : κ) : Option (value k) :=
  match valuesOf k fields with
  | [v] => some v
  | _ => none

end FiniteAutomata.Cbor
