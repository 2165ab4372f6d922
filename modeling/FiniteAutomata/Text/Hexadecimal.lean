/-!
# Hexadecimal text

Digits are written in lower case and read in either case. A written number has a fixed width.
-/
namespace FiniteAutomata

/-- The digit of a number below sixteen. -/
def hexDigit (n : Nat) : Char := Char.ofNat (if n < 10 then 48 + n else 87 + n)

/-- The value of a digit, in either case. -/
def hexValue? (c : Char) : Option Nat :=
  let n := c.toNat
  if 48 ≤ n ∧ n ≤ 57 then some (n - 48)
  else if 97 ≤ n ∧ n ≤ 102 then some (n - 87)
  else if 65 ≤ n ∧ n ≤ 70 then some (n - 55)
  else none

/-- The last `width` digits of a number, the most significant first. -/
def hexText : Nat → Nat → List Char
  | 0, _ => []
  | width + 1, n => hexText width (n / 16) ++ [hexDigit (n % 16)]

/-- The value of a run of digits, `none` when another character is among them. -/
def hexNumber? (cs : List Char) : Option Nat :=
  cs.foldl (fun acc c => acc.bind fun n => (hexValue? c).map (16 * n + ·)) (some 0)

/-- Each byte as two digits. -/
def hexBytes (bs : List UInt8) : String := String.ofList (bs.flatMap fun b => hexText 2 b.toNat)

theorem hexValue?_hexDigit {n : Nat} (h : n < 16) : hexValue? (hexDigit n) = some n := by
  have : ∀ m : Fin 16, hexValue? (hexDigit m) = some m.val := by decide
  exact this ⟨n, h⟩

@[simp] theorem length_hexText (width n : Nat) : (hexText width n).length = width := by
  induction width generalizing n with
  | zero => rfl
  | succ w ih => simp [hexText, ih]

/-- A number that fits its width is read back. -/
theorem hexNumber?_hexText {width n : Nat} (h : n < Nat.pow 16 width) :
    hexNumber? (hexText width n) = some n := by
  induction width generalizing n with
  | zero => simp at h; simp [hexText, hexNumber?, h]
  | succ w ih =>
    have hw : n / 16 < Nat.pow 16 w := (Nat.div_lt_iff_lt_mul (by decide)).2 h
    have := ih hw
    simp only [hexNumber?] at this
    simp only [hexText, hexNumber?, List.foldl_append, this, List.foldl_cons, List.foldl_nil,
      Option.bind_some, hexValue?_hexDigit (Nat.mod_lt n (by decide : 0 < 16)), Option.map_some,
      Option.some.injEq]
    omega

end FiniteAutomata
