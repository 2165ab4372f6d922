import FiniteAutomata.Cbor.Head
import FiniteAutomata.Text.Utf8

/-!
# Strings

A byte string or a text is one chunk of the length that its head gives, or else a series of chunks
up to a stop. The chunks of a series have heads of their own and may themselves be series. Every
chunk of a text is valid UTF-8. Main statement: a text is read back from its written form
(`reads_text`).
-/
namespace FiniteAutomata.Cbor

/-- The length that the head of a byte string gives. -/
def Head.bytesLength? : Head → Option (Option Nat)
  | .bytes length => some length
  | _ => none

/-- The length that the head of a text gives. -/
def Head.textLength? : Head → Option (Option Nat)
  | .text length => some length
  | _ => none

/-- Reads the chunks up to the stop that closes the outermost of `depth` + 1 nested series. -/
def readSeries (length? : Head → Option (Option Nat)) (depth : Nat) (bs : List UInt8) :
    Option (List (List UInt8) × List UInt8) :=
  match _h : readHead bs with
  | none => none
  | some (.stop, rest) =>
    match depth with
    | 0 => some ([], rest)
    | depth + 1 => readSeries length? depth rest
  | some (head, rest) =>
    match length? head with
    | none => none
    | some none => readSeries length? (depth + 1) rest
    | some (some n) =>
      match _t : takeBytes? n rest with
      | none => none
      | some (chunk, rest) =>
        (readSeries length? depth rest).map fun (chunks, rest) => (chunk :: chunks, rest)
  termination_by bs.length
  decreasing_by
    · exact length_readHead _h
    · exact length_readHead _h
    · have := length_readHead _h
      have := congrArg List.length (eq_of_takeBytes? _t).1
      simp at this; omega

/-- Reads the chunks of a string whose head gave a length or none. -/
def readChunks (length? : Head → Option (Option Nat)) (length : Option Nat) :
    Reader (List (List UInt8)) :=
  match length with
  | some n => fun bs => (takeBytes? n bs).map fun (chunk, rest) => ([chunk], rest)
  | none => readSeries length? 0

/-- Reads the content of a byte string whose head gave a length or none. -/
def readByteContent (length : Option Nat) : Reader (List UInt8) := fun bs =>
  (readChunks Head.bytesLength? length bs).map fun (chunks, rest) => (chunks.flatten, rest)

/-- Reads the content of a text whose head gave a length or none. -/
def readTextContent (length : Option Nat) : Reader String := fun bs => do
  let (chunks, rest) ← readChunks Head.textLength? length bs
  let texts ← chunks.mapM ofUtf8?
  return (String.join texts, rest)

/-- Reads a text. -/
def readText : Reader String := fun bs => do
  let (head, rest) ← readUntagged bs
  match head with
  | .text length => readTextContent length rest
  | _ => none

/-- Reads a text of one character, which is at most four bytes long. -/
def readChar : Reader Char := fun bs => do
  let (head, rest) ← readUntagged bs
  match head with
  | .text (some n) =>
    if n ≤ 4 then
      let (content, rest) ← takeBytes? n rest
      let text ← ofUtf8? content
      match text.toList with
      | [c] => some (c, rest)
      | _ => none
    else none
  | _ => none

/-- The longest key of a record, in bytes. -/
def maxKeyLength : Nat := 4096

/--
Reads what follows the head of a key of a record: a text, or a byte string, of given length. A byte
string that is not valid UTF-8 is none of the keys that a record knows.
-/
def readKeyContent (head : Head) : Reader (Option String) := fun bs =>
  match head with
  | .text (some n) =>
    if n ≤ maxKeyLength then do
      let (content, rest) ← takeBytes? n bs
      let text ← ofUtf8? content
      return (some text, rest)
    else none
  | .bytes (some n) =>
    if n ≤ maxKeyLength then (takeBytes? n bs).map fun (content, rest) => (ofUtf8? content, rest)
    else none
  | _ => none

/-- Reads a key of a record. -/
def readKey : Reader (Option String) := fun bs => do
  let (head, rest) ← readUntagged bs
  readKeyContent head rest

/-! ### Writing -/

/-- The written form of a text. -/
def textBytes (s : String) : List UInt8 := headBytes 3 (utf8Bytes s).length ++ utf8Bytes s

theorem readUntagged_headBytes {major n : Nat} (hm : major < 6) (hn : n < UInt64.size)
    (rest : List UInt8) :
    readUntagged (headBytes major n ++ rest) = (Head.ofParts? major 0 (some n)).map (·, rest) := by
  have h := readHead_headBytes (show major < 7 by omega) hn rest
  unfold readUntagged readHeadPast
  split
  · rename_i m r e
    rw [e] at h
    have : major = 0 ∨ major = 1 ∨ major = 2 ∨ major = 3 ∨ major = 4 ∨ major = 5 := by omega
    rcases this with rfl | rfl | rfl | rfl | rfl | rfl <;> simp [Head.ofParts?] at h
  · exact h

/-- A text is read back. -/
theorem reads_text {s : String} (h : (utf8Bytes s).length < UInt64.size) :
    Reads readText (textBytes s) s := by
  intro rest
  simp [readText, textBytes, List.append_assoc, readUntagged_headBytes (by decide : 3 < 6) h,
    Head.ofParts?, readTextContent, readChunks, takeBytes?_append _ rest, String.join]

end FiniteAutomata.Cbor
