import FiniteAutomata.Text.Blank
import FiniteAutomata.Text.Hexadecimal

/-!
# Escaped symbols

White space, control characters and the characters that the text format reserves are written as a
backslash followed by one letter, or by a hexadecimal code of fixed width. An escaped symbol holds
no raw white space, and reading takes exactly the characters that writing produced
(`readSymbol_escape`). The letter `ε` is escaped because alone it stands for the empty label.
-/
namespace FiniteAutomata

/-- The symbols with an escape of one letter, each with its letter. -/
def shortEscapes : List (Char × Char) :=
  [('\\', '\\'), ('\r', 'r'), ('\n', 'n'), (' ', 's'), ('\t', 't'), (',', ','), ('#', '#'),
   (':', ':'), ('ε', 'e')]

/-- The number of hexadecimal digits announced by the letter of a numeric escape. -/
def numericWidth? (letter : Char) : Option Nat :=
  if letter = 'x' then some 2 else if letter = 'u' then some 4 else if letter = 'U' then some 8
  else none

/-- A code in the least of the three widths that holds it, after the letter of the width. -/
def numericEscape (n : Nat) : List Char :=
  if n ≤ 0xff then 'x' :: hexText 2 n
  else if n ≤ 0xffff then 'u' :: hexText 4 n
  else 'U' :: hexText 8 n

/-- The written form of a symbol. -/
def escape (c : Char) : List Char :=
  match shortEscapes.find? (·.1 == c) with
  | some e => ['\\', e.2]
  | none => if isControl c || isBlank c then '\\' :: numericEscape c.toNat else [c]

/-- The character of a code, `none` for a surrogate or a code above the last character. -/
def charOfCode? (n : Nat) : Option Char := if n.isValidChar then some (Char.ofNat n) else none

/-- Reads what follows a backslash, giving the symbol and the rest of the text. -/
def readEscape : List Char → Option (Char × List Char)
  | [] => none
  | l :: cs =>
    match shortEscapes.find? (·.2 == l) with
    | some e => some (e.1, cs)
    | none =>
      match numericWidth? l with
      | none => none
      | some w =>
        if cs.length < w then none
        else ((hexNumber? (cs.take w)).bind charOfCode?).map fun c => (c, cs.drop w)

/-- Reads one symbol, escaped or not, giving it with the rest of the text. -/
def readSymbol : List Char → Option (Char × List Char)
  | [] => none
  | c :: cs => if c = '\\' then readEscape cs else some (c, cs)

/-- The symbol that a text writes, when it writes exactly one. -/
def parseSymbol? (cs : List Char) : Option Char :=
  match readSymbol cs with
  | some (c, []) => some c
  | _ => none

/-! ### Reading back -/

theorem length_readEscape {cs rest : List Char} {c : Char} (h : readEscape cs = some (c, rest)) :
    rest.length < cs.length := by
  cases cs with
  | nil => simp [readEscape] at h
  | cons l cs =>
    rw [readEscape] at h
    split at h
    · obtain ⟨-, rfl⟩ := Prod.mk.inj (Option.some.inj h); simp
    · split at h
      · simp at h
      · split at h
        · simp at h
        · obtain ⟨d, -, e⟩ := Option.map_eq_some_iff.1 h
          obtain ⟨-, rfl⟩ := Prod.mk.inj e
          rw [List.length_drop, List.length_cons]; omega

/-- Reading a symbol consumes text. -/
theorem length_readSymbol {cs rest : List Char} {c : Char} (h : readSymbol cs = some (c, rest)) :
    rest.length < cs.length := by
  cases cs with
  | nil => simp [readSymbol] at h
  | cons d cs =>
    rw [readSymbol] at h
    split at h
    · have := length_readEscape h; rw [List.length_cons]; omega
    · obtain ⟨-, rfl⟩ := Prod.mk.inj (Option.some.inj h); simp

theorem charOfCode?_toNat (c : Char) : charOfCode? c.toNat = some c := by
  have h : c.toNat.isValidChar := c.valid
  simp [charOfCode?, h]

theorem toNat_lt (c : Char) : c.toNat < 0x110000 := by
  have h : c.toNat.isValidChar := c.valid
  rcases h with h | h <;> omega

/-- A code after the letter of its width is read back. -/
theorem readEscape_hexText {l c : Char} {width n : Nat} (hs : shortEscapes.find? (·.2 == l) = none)
    (hw : numericWidth? l = some width) (hn : n < Nat.pow 16 width) (hc : charOfCode? n = some c)
    (rest : List Char) : readEscape (l :: (hexText width n ++ rest)) = some (c, rest) := by
  have hlen := length_hexText width n
  have hl : ¬ (hexText width n ++ rest).length < width := by
    rw [List.length_append, hlen]; omega
  have ht : (hexText width n ++ rest).take width = hexText width n := List.take_left' hlen
  have hd : (hexText width n ++ rest).drop width = rest := List.drop_left' hlen
  rw [readEscape, hs, hw]
  simp only [if_neg hl, ht, hd, hexNumber?_hexText hn, Option.bind_some, hc, Option.map_some]

theorem readEscape_numericEscape (c : Char) (rest : List Char) :
    readEscape (numericEscape c.toNat ++ rest) = some (c, rest) := by
  have hc := toNat_lt c
  have hv := charOfCode?_toNat c
  unfold numericEscape
  split
  · rename_i h
    exact readEscape_hexText rfl rfl (Nat.lt_of_le_of_lt h (by decide)) hv rest
  · split
    · rename_i h
      exact readEscape_hexText rfl rfl (Nat.lt_of_le_of_lt h (by decide)) hv rest
    · exact readEscape_hexText rfl rfl (Nat.lt_trans hc (by decide)) hv rest

/-- Reading takes the written form of a symbol and nothing after it. -/
theorem readSymbol_escape (c : Char) (rest : List Char) :
    readSymbol (escape c ++ rest) = some (c, rest) := by
  unfold escape
  split
  · rename_i e he
    have hc : e.1 = c := by simpa using List.find?_some he
    have hm := List.mem_of_find?_eq_some he
    subst hc
    simp only [shortEscapes, List.mem_cons, List.not_mem_nil, or_false] at hm
    rcases hm with rfl | rfl | rfl | rfl | rfl | rfl | rfl | rfl | rfl <;> rfl
  · rename_i hn
    split
    · simp [readSymbol, readEscape_numericEscape]
    · have h : c ≠ '\\' := fun h => by simp [h, shortEscapes] at hn
      simp [readSymbol, h]

/-- A written symbol is read back. -/
@[simp] theorem parseSymbol?_escape (c : Char) : parseSymbol? (escape c) = some c := by
  have := readSymbol_escape c []
  simp only [List.append_nil] at this
  simp [parseSymbol?, this]

end FiniteAutomata
