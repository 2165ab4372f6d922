import FiniteAutomata.Cbor.Item

/-!
# Skipping items

The value of an unknown key is read only to find its end, but it must be well formed: arrays, maps
and tags may be nested to a limited depth, and of the simple values only the booleans, null and
undefined are known. A number in a byte string of at most sixteen bytes is one item with its tag,
and takes no level; in front of anything else, its tag is a tag like the others.
-/
namespace FiniteAutomata.Cbor

/-- The number of levels to which arrays, maps and tags may be nested. -/
def maxLevels : Nat := 256

/-- The length of the longest byte string that is skipped as a number. -/
def maxNumberLength : Nat := 16

/-- Whether a number follows a tag. -/
def numberFollows (tag : Nat) (bs : List UInt8) : Bool :=
  isNumberTag tag &&
    match readHead bs with
    | some (.bytes (some length), _) => length ≤ maxNumberLength
    | _ => false

/-- Skips the byte string of a number: a negative number has at most 127 bits. -/
def skipNumber (tag : Nat) : Reader Unit := fun bs => do
  match ← readHead bs with
  | (.bytes length, rest) =>
    let (content, rest) ← readByteContent length rest
    if tag = 2 ∨ 2 * ofBigEndian content < UInt64.size * UInt64.size then some ((), rest) else none
  | _ => none

/-- Skips what follows the head of an item that has no items inside. -/
def skipContent (head : Head) : Reader Unit := fun bs =>
  match head with
  | .unsigned _ | .negative _ | .float => some ((), bs)
  | .simple n => if 20 ≤ n ∧ n ≤ 23 then some ((), bs) else none
  | .bytes length => (readByteContent length bs).map fun (_, rest) => ((), rest)
  | .text length => (readTextContent length bs).map fun (_, rest) => ((), rest)
  | .tag n => if numberFollows n bs then skipNumber n bs else none
  | _ => none

/-- Skips an item of at most `levels` levels. -/
def skipItem : Nat → Reader Unit
  | 0 => fun bs => do
    let (head, rest) ← readHead bs
    skipContent head rest
  | levels + 1 => fun bs => do
    let (head, rest) ← readHead bs
    match head with
    | .tag n => if numberFollows n rest then skipNumber n rest else skipItem levels rest
    | .array length =>
      (readItems (skipItem levels) length rest).map fun (_, rest) => ((), rest)
    | .map length =>
      (readItems (readPair (skipItem levels) fun _ => skipItem levels) length rest).map
        fun (_, rest) => ((), rest)
    | head => skipContent head rest

end FiniteAutomata.Cbor
