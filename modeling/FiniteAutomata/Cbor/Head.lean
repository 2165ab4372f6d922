import FiniteAutomata.Bytes

/-!
# Heads of data items

A data item of the Concise Binary Object Representation starts with a head: a byte that holds a
major type and five bits of information, and an argument that these bits hold or announce. The head
of a string, an array or a map gives its length, or leaves it to a stop. Tags, which may stand in
front of any item, have heads of their own. Main statement: the shortest head of an argument is read
back (`readHead_headBytes`).
-/
namespace FiniteAutomata.Cbor

/-- What the head of a data item says. -/
inductive Head where
  | unsigned (n : Nat)
  /-- The number `-1 - n`. -/
  | negative (n : Nat)
  | bytes (length : Option Nat)
  | text (length : Option Nat)
  | array (length : Option Nat)
  | map (length : Option Nat)
  | tag (n : Nat)
  | simple (n : Nat)
  | float
  /-- The end of an item whose length was not given. -/
  | stop
  deriving DecidableEq, Repr

/-- The number of bytes of the argument that the information announces. -/
def argumentWidth? (info : Nat) : Option Nat :=
  match info with
  | 24 => some 1
  | 25 => some 2
  | 26 => some 4
  | 27 => some 8
  | _ => none

/-- The argument of a head, none when it is left out. -/
def readArgument (info : Nat) (bs : List UInt8) : Option (Option Nat × List UInt8) :=
  if info < 24 then some (some info, bs)
  else if info = 31 then some (none, bs)
  else do
    let width ← argumentWidth? info
    let (front, rest) ← takeBytes? width bs
    return (some (ofBigEndian front), rest)

/--
The head of a major type with an argument. In the last type, an argument of two bytes or more is a
floating-point number.
-/
def Head.ofParts? (major info : Nat) (argument : Option Nat) : Option Head :=
  match major, argument with
  | 0, some n => some (.unsigned n)
  | 1, some n => some (.negative n)
  | 2, n => some (.bytes n)
  | 3, n => some (.text n)
  | 4, n => some (.array n)
  | 5, n => some (.map n)
  | 6, some n => some (.tag n)
  | 7, some n => some (if info ≤ 24 then .simple n else .float)
  | 7, none => some .stop
  | _, _ => none

/-- Reads a head. -/
def readHead : Reader Head
  | [] => none
  | b :: bs => do
    let info := b.toNat % 32
    let (argument, rest) ← readArgument info bs
    let head ← Head.ofParts? (b.toNat / 32) info argument
    return (head, rest)

theorem length_readArgument {info : Nat} {bs rest : List UInt8} {argument : Option Nat}
    (h : readArgument info bs = some (argument, rest)) : rest.length ≤ bs.length := by
  unfold readArgument at h
  split at h
  · simp_all
  · split at h
    · simp_all
    · simp only [Option.bind_eq_bind, Option.bind_eq_some_iff, Prod.exists] at h
      obtain ⟨w, -, front, r, ht, e⟩ := h
      obtain ⟨rfl, -⟩ := eq_of_takeBytes? ht
      obtain ⟨-, rfl⟩ := Prod.mk.inj (Option.some.inj e)
      simp

/-- A head takes at least one byte. -/
theorem length_readHead {bs rest : List UInt8} {head : Head} (h : readHead bs = some (head, rest)) :
    rest.length < bs.length := by
  cases bs with
  | nil => simp [readHead] at h
  | cons b bs =>
    simp only [readHead, Option.bind_eq_bind, Option.bind_eq_some_iff, Prod.exists] at h
    obtain ⟨argument, r, ha, hd, -, e⟩ := h
    obtain ⟨-, rfl⟩ := Prod.mk.inj (Option.some.inj e)
    have := length_readArgument ha
    simp; omega

/-- Reads a head, past the tags in front of it that may be skipped. -/
def readHeadPast (skipped : Nat → Bool) (bs : List UInt8) : Option (Head × List UInt8) :=
  match _h : readHead bs with
  | some (.tag n, rest) => if skipped n then readHeadPast skipped rest else some (.tag n, rest)
  | result => result
  termination_by bs.length
  decreasing_by exact length_readHead _h

/-- Reads the head of an item past its tags. -/
def readUntagged : Reader Head := readHeadPast fun _ => true

/-! ### Writing -/

/-- The shortest head of a major type with an argument of at most 64 bits. -/
def headBytes (major n : Nat) : List UInt8 :=
  let first (info : Nat) := UInt8.ofNat (32 * major + info)
  if n < 24 then [first n]
  else if n < 0x100 then first 24 :: bigEndian 1 n
  else if n < 0x10000 then first 25 :: bigEndian 2 n
  else if n < 0x100000000 then first 26 :: bigEndian 4 n
  else first 27 :: bigEndian 8 n

theorem readArgument_bigEndian {info width n : Nat} (hw : argumentWidth? info = some width)
    (hn : n < Nat.pow 256 width) (rest : List UInt8) :
    readArgument info (bigEndian width n ++ rest) = some (some n, rest) := by
  have ht := takeBytes?_append (bigEndian width n) rest
  rw [length_bigEndian] at ht
  have h24 : ¬ info < 24 := by
    intro hlt; unfold argumentWidth? at hw; split at hw <;> simp_all
  have h31 : info ≠ 31 := by rintro rfl; simp [argumentWidth?] at hw
  have hv : ofBigEndian (bigEndian width n) = n := by
    rw [ofBigEndian_bigEndian, Nat.mod_eq_of_lt hn]
  simp [readArgument, h24, h31, hw, ht, hv]

theorem readHead_cons {major info : Nat} (hm : major < 8) (hi : info < 32) (bs : List UInt8) :
    readHead (UInt8.ofNat (32 * major + info) :: bs) =
      (readArgument info bs).bind fun (argument, rest) =>
        (Head.ofParts? major info argument).map fun head => (head, rest) := by
  have e : (UInt8.ofNat (32 * major + info)).toNat = 32 * major + info := by
    simp; omega
  have em : (32 * major + info) % 32 = info := by omega
  have ed : (32 * major + info) / 32 = major := by omega
  simp only [readHead, e, em, ed]
  cases readArgument info bs with
  | none => rfl
  | some p => cases h : Head.ofParts? major info p.1 <;> simp [h]

/-- The information matters for the last major type alone. -/
theorem Head.ofParts?_of_lt {major : Nat} (hm : major < 7) (n info : Nat) :
    Head.ofParts? major info (some n) = Head.ofParts? major 0 (some n) := by
  have : major = 0 ∨ major = 1 ∨ major = 2 ∨ major = 3 ∨ major = 4 ∨ major = 5 ∨ major = 6 := by
    omega
  rcases this with rfl | rfl | rfl | rfl | rfl | rfl | rfl <;> rfl

/-- The shortest head of a number, a length or a tag is read back. -/
theorem readHead_headBytes {major n : Nat} (hm : major < 7) (hn : n < UInt64.size)
    (rest : List UInt8) :
    readHead (headBytes major n ++ rest) = (Head.ofParts? major 0 (some n)).map (·, rest) := by
  have hp := Head.ofParts?_of_lt hm n
  unfold headBytes
  split
  · rw [List.singleton_append, readHead_cons (by omega) (by omega)]
    simp [readArgument, *]
  · split
    · rw [List.cons_append, readHead_cons (by omega) (by omega),
        readArgument_bigEndian rfl (by omega)]
      simp [hp 24]
    · split
      · rw [List.cons_append, readHead_cons (by omega) (by omega),
          readArgument_bigEndian rfl (by omega)]
        simp [hp 25]
      · split
        · rw [List.cons_append, readHead_cons (by omega) (by omega),
            readArgument_bigEndian rfl (by omega)]
          simp [hp 26]
        · rw [List.cons_append, readHead_cons (by omega) (by omega),
            readArgument_bigEndian rfl (by omega)]
          simp [hp 27]

end FiniteAutomata.Cbor
