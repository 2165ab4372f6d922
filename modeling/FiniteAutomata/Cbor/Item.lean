import FiniteAutomata.Cbor.Chunk

/-!
# Numbers, arrays and maps

The items of an array follow each other, and so do the keys and values of a map. Their number is
given by the head or left to a stop. A byte string stands for the array of its bytes. An array that
is longer than a reader asks for is not skipped: its last items are left for the next reader. Main
statements: numbers, arrays and maps are read back from their written forms.
-/
namespace FiniteAutomata.Cbor

/-! ### Numbers -/

/-- Whether a tag announces a number that is written as a byte string. -/
def isNumberTag (tag : Nat) : Bool := tag == 2 || tag == 3

/--
Reads a number of at most 64 bits, as a head or as the bytes after the tag of positive numbers.
-/
def readUnsigned : Reader Nat := fun bs => do
  let (head, rest) ← readHeadPast (!isNumberTag ·) bs
  match head with
  | .unsigned n => some (n, rest)
  | .tag 2 =>
    match ← readHead rest with
    | (.bytes length, rest) =>
      let (content, rest) ← readByteContent length rest
      let n := ofBigEndian content
      if n < UInt64.size then some (n, rest) else none
    | _ => none
  | _ => none

/-- Reads a number below `256`. -/
def readByte : Reader UInt8 := fun bs => do
  let (n, rest) ← readUnsigned bs
  if n < 256 then some (UInt8.ofNat n, rest) else none

/-- Reads null as none, and any other item with `read`. -/
def readOptional {α : Type} (read : Reader α) : Reader (Option α) := fun bs => do
  match ← readHead bs with
  | (.simple 22, rest) | (.simple 23, rest) => some (none, rest)
  | _ => (read bs).map fun (v, rest) => (some v, rest)

/-! ### Items in a row -/

/-- Reads `n` items. -/
def readCount {α : Type} (read : Reader α) : Nat → Reader (List α)
  | 0 => fun bs => some ([], bs)
  | n + 1 => fun bs => do
    let (v, bs) ← read bs
    let (vs, bs) ← readCount read n bs
    return (v :: vs, bs)

/-- Reads items up to a stop. An item takes at least one byte. -/
def readUntilStop {α : Type} (read : Reader α) (bs : List UInt8) : Option (List α × List UInt8) :=
  match readHead bs with
  | some (.stop, rest) => some ([], rest)
  | _ =>
    match read bs with
    | none => none
    | some (v, rest) =>
      if _h : rest.length < bs.length then
        (readUntilStop read rest).map fun (vs, rest) => (v :: vs, rest)
      else none
  termination_by bs.length

/-- Reads the items of an array whose head gave a length or none. -/
def readItems {α : Type} (read : Reader α) (length : Option Nat) : Reader (List α) :=
  match length with
  | some n => readCount read n
  | none => readUntilStop read

/-- Reads an array, or a byte string of which each byte is an item. -/
def readArray {α : Type} (read : Reader α) (ofByte? : UInt8 → Option α) : Reader (List α) :=
  fun bs => do
    let (head, rest) ← readUntagged bs
    match head with
    | .array length => readItems read length rest
    | .bytes length =>
      let (content, rest) ← readByteContent length rest
      return (← content.mapM ofByte?, rest)
    | _ => none

/-- Reads the first `n` items of an array, or the first `n` bytes of a byte string. -/
def readTuple {α : Type} (read : Reader α) (ofByte? : UInt8 → Option α) (n : Nat) :
    Reader (List α) := fun bs => do
  let (head, rest) ← readUntagged bs
  match head with
  | .array none => readCount read n rest
  | .array (some m) => if n ≤ m then readCount read n rest else none
  | .bytes length =>
    let (content, rest) ← readByteContent length rest
    let (front, _) ← takeBytes? n content
    return (← front.mapM ofByte?, rest)
  | _ => none

/-- Reads a key and the value that it says how to read. -/
def readPair {κ ν : Type} (readKey : Reader κ) (readValue : κ → Reader ν) : Reader (κ × ν) :=
  fun bs => do
    let (k, bs) ← readKey bs
    let (v, bs) ← readValue k bs
    return ((k, v), bs)

/-- Reads the keys and values of a map. -/
def readMap {κ ν : Type} (readKey : Reader κ) (readValue : κ → Reader ν) : Reader (List (κ × ν)) :=
  fun bs => do
    let (head, rest) ← readUntagged bs
    match head with
    | .map length => readItems (readPair readKey readValue) length rest
    | _ => none

/-! ### Writing -/

/-- The written form of a number. -/
def unsignedBytes (n : Nat) : List UInt8 := headBytes 0 n

/-- The written form of null. -/
def nullBytes : List UInt8 := [0xf6]

/-- The written form of an array. -/
def arrayBytes {α : Type} (bytes : α → List UInt8) (vs : List α) : List UInt8 :=
  headBytes 4 vs.length ++ vs.flatMap bytes

/-- The written form of a map. -/
def mapBytes {κ ν : Type} (keyBytes : κ → List UInt8) (valueBytes : ν → List UInt8)
    (es : List (κ × ν)) : List UInt8 :=
  headBytes 5 es.length ++ es.flatMap fun e => keyBytes e.1 ++ valueBytes e.2

/-- The written form of a record: the map of its fields. -/
def recordBytes (fields : List (String × List UInt8)) : List UInt8 := mapBytes textBytes id fields

/-- A number is read back. -/
theorem reads_unsigned {n : Nat} (h : n < UInt64.size) :
    Reads readUnsigned (unsignedBytes n) n := by
  intro rest
  have e := readHead_headBytes (by decide : 0 < 7) h rest
  have p : readHeadPast (!isNumberTag ·) (headBytes 0 n ++ rest) = some (.unsigned n, rest) := by
    unfold readHeadPast
    split
    · rename_i he; rw [he] at e; simp [Head.ofParts?] at e
    · rw [e]; simp [Head.ofParts?]
  simp [readUnsigned, unsignedBytes, p]

/-- Items that are each read back are read back in a row. -/
theorem reads_count_map {ι α : Type} {read : Reader α} {bytes : ι → List UInt8} {val : ι → α}
    {is : List ι} (h : ∀ i ∈ is, Reads read (bytes i) (val i)) :
    Reads (readCount read is.length) (is.flatMap bytes) (is.map val) := by
  induction is with
  | nil => exact fun _ => rfl
  | cons i is ih =>
    intro rest
    have hi := h i (by simp) (is.flatMap bytes ++ rest)
    have hs := ih (fun j hj => h j (by simp [hj])) rest
    simp [readCount, List.append_assoc, hi, hs]

theorem reads_count {α : Type} {read : Reader α} {bytes : α → List UInt8} {vs : List α}
    (h : ∀ v ∈ vs, Reads read (bytes v) v) :
    Reads (readCount read vs.length) (vs.flatMap bytes) vs := by
  have hc := reads_count_map h
  rwa [List.map_id'] at hc

/-- An array of items that are each read back is read back. -/
theorem reads_array {α : Type} {read : Reader α} {ofByte? : UInt8 → Option α}
    {bytes : α → List UInt8} {vs : List α} (hn : vs.length < UInt64.size)
    (h : ∀ v ∈ vs, Reads read (bytes v) v) :
    Reads (readArray read ofByte?) (arrayBytes bytes vs) vs := by
  intro rest
  simp [readArray, arrayBytes, List.append_assoc, readUntagged_headBytes (by decide : 4 < 6) hn,
    Head.ofParts?, readItems, reads_count h rest]

/-- A key and its value are read back one after the other. -/
theorem reads_pair {κ ν : Type} {readKey : Reader κ} {readValue : κ → Reader ν} {k : κ} {v : ν}
    {bs cs : List UInt8} (hk : Reads readKey bs k) (hv : Reads (readValue k) cs v) :
    Reads (readPair readKey readValue) (bs ++ cs) (k, v) := by
  intro rest
  simp [readPair, List.append_assoc, hk (cs ++ rest), hv rest]

/-- A map whose keys and values are each read back is read back. -/
theorem reads_map {κ ν : Type} {readKey : Reader κ} {readValue : κ → Reader ν}
    {keyBytes : κ → List UInt8} {valueBytes : ν → List UInt8} {es : List (κ × ν)}
    (hn : es.length < UInt64.size) (hk : ∀ e ∈ es, Reads readKey (keyBytes e.1) e.1)
    (hv : ∀ e ∈ es, Reads (readValue e.1) (valueBytes e.2) e.2) :
    Reads (readMap readKey readValue) (mapBytes keyBytes valueBytes es) es := by
  intro rest
  have h : ∀ e ∈ es, Reads (readPair readKey readValue) (keyBytes e.1 ++ valueBytes e.2) e :=
    fun e he => reads_pair (hk e he) (hv e he)
  have hc := reads_count h rest
  simp [readMap, mapBytes, List.append_assoc, readUntagged_headBytes (by decide : 5 < 6) hn,
    Head.ofParts?, readItems, hc]

end FiniteAutomata.Cbor
