/-!
# Bytes

Bytes are kept in lists, which are what a proof can take apart. A reader takes a value from the
front of a list and gives it with the bytes that follow. Main statements: numbers are read back from
their big-endian bytes (`ofBigEndian_bigEndian`), and so are the bytes in front of others
(`takeBytes?_append`).
-/
namespace FiniteAutomata

/-- Reads a value from the front of some bytes, giving it with the bytes after it. -/
abbrev Reader (α : Type) := List UInt8 → Option (α × List UInt8)

/-- Whether a reader takes a value from its written form, and nothing of what follows. -/
def Reads {α : Type} (read : Reader α) (bytes : List UInt8) (value : α) : Prop :=
  ∀ rest, read (bytes ++ rest) = some (value, rest)

/-- The last `width` bytes of a number, the most significant first. -/
def bigEndian : Nat → Nat → List UInt8
  | 0, _ => []
  | width + 1, n => bigEndian width (n / 256) ++ [UInt8.ofNat (n % 256)]

/-- The number that big-endian bytes spell. -/
def ofBigEndian (bs : List UInt8) : Nat := bs.foldl (fun n b => n * 256 + b.toNat) 0

/-- Splits off the first `n` bytes, when there are that many. -/
def takeBytes? : Nat → Reader (List UInt8)
  | 0, bs => some ([], bs)
  | _ + 1, [] => none
  | n + 1, b :: bs => (takeBytes? n bs).map fun (front, rest) => (b :: front, rest)

@[simp] theorem length_bigEndian (width n : Nat) : (bigEndian width n).length = width := by
  induction width generalizing n with
  | zero => rfl
  | succ w ih => simp [bigEndian, ih]

/-- A number is read back modulo what its width holds. -/
theorem ofBigEndian_bigEndian (width n : Nat) :
    ofBigEndian (bigEndian width n) = n % Nat.pow 256 width := by
  induction width generalizing n with
  | zero => simp [bigEndian, ofBigEndian, Nat.mod_one]
  | succ w ih =>
    have h : (UInt8.ofNat (n % 256)).toNat = n % 256 := by simp
    have e : ofBigEndian (bigEndian w (n / 256) ++ [UInt8.ofNat (n % 256)]) =
        ofBigEndian (bigEndian w (n / 256)) * 256 + (UInt8.ofNat (n % 256)).toNat := by
      simp [ofBigEndian]
    have p : Nat.pow 256 (w + 1) = 256 * Nat.pow 256 w := Nat.mul_comm (Nat.pow 256 w) 256
    rw [bigEndian, e, ih, h, p, Nat.mod_mul]
    omega

/-- The bytes in front are split from those that follow. -/
theorem takeBytes?_append (front : List UInt8) : Reads (takeBytes? front.length) front front := by
  induction front with
  | nil => exact fun _ => rfl
  | cons b bs ih => intro rest; simp [takeBytes?, ih rest]

/-- What is split off has the length asked for, and nothing is lost. -/
theorem eq_of_takeBytes? {n : Nat} {bs front rest : List UInt8}
    (h : takeBytes? n bs = some (front, rest)) :
    bs = front ++ rest ∧ front.length = n := by
  induction n generalizing bs front with
  | zero =>
    obtain ⟨rfl, rfl⟩ := Prod.mk.inj (Option.some.inj h)
    simp
  | succ n ih =>
    cases bs with
    | nil => simp [takeBytes?] at h
    | cons b bs =>
      obtain ⟨⟨f, r⟩, h', e⟩ := Option.map_eq_some_iff.1 h
      obtain ⟨rfl, rfl⟩ := Prod.mk.inj e
      obtain ⟨rfl, rfl⟩ := ih h'
      simp

end FiniteAutomata
