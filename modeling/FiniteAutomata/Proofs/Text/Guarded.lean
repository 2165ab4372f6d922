import FiniteAutomata.Text.Escape
import FiniteAutomata.Text.Separator

/-!
# Guarded text

In a guarded text every character that no backslash escapes has a property. Written symbols are
*sealed*: outside of escapes they hold no white space and no character that the text format reserves.
So a cut at a separator passes over them (`Guarded.cutUnescaped?_append`), and entries that hold no
comma are read back from the text that commas join (`splitEntries_intercalate`).
-/
namespace FiniteAutomata

/-- Each character that is not escaped has the property, and no escaped one is white space. -/
inductive Guarded (p : Char → Prop) : List Char → Prop where
  | nil : Guarded p []
  | plain {c : Char} {cs : List Char} : c ≠ '\\' → p c → Guarded p cs → Guarded p (c :: cs)
  | escaped {c : Char} {cs : List Char} :
      isBlank c = false → Guarded p cs → Guarded p ('\\' :: c :: cs)

/-- Neither white space nor reserved. -/
def Unreserved (c : Char) : Prop := isBlank c = false ∧ c ≠ ',' ∧ c ≠ '#' ∧ c ≠ ':'

instance (c : Char) : Decidable (Unreserved c) := by unfold Unreserved; infer_instance

/-- A text that means no more than its symbols, wherever it is written. -/
def Sealed (cs : List Char) : Prop := Guarded Unreserved cs

namespace Guarded

variable {p q : Char → Prop} {cs ds : List Char}

theorem append (h : Guarded p cs) (h' : Guarded p ds) : Guarded p (cs ++ ds) := by
  induction h with
  | nil => exact h'
  | plain hc hp _ ih => exact .plain hc hp ih
  | escaped hc _ ih => exact .escaped hc ih

theorem mono (h : Guarded p cs) (hpq : ∀ c, p c → q c) : Guarded q cs := by
  induction h with
  | nil => exact .nil
  | plain hc hp _ ih => exact .plain hc (hpq _ hp) ih
  | escaped hc _ ih => exact .escaped hc ih

theorem flatMap {α : Type} {xs : List α} {f : α → List Char} (h : ∀ x ∈ xs, Guarded p (f x)) :
    Guarded p (xs.flatMap f) := by
  induction xs with
  | nil => exact .nil
  | cons x xs ih =>
    rw [List.flatMap_cons]
    exact (h x (by simp)).append (ih fun y hy => h y (by simp [hy]))

theorem intercalate {sep : List Char} {es : List (List Char)} (hs : Guarded p sep)
    (h : ∀ e ∈ es, Guarded p e) : Guarded p (sep.intercalate es) := by
  induction es with
  | nil => exact .nil
  | cons e es ih =>
    have he := h e (by simp)
    cases es with
    | nil => rwa [List.intercalate_singleton]
    | cons f fs =>
      rw [List.intercalate_cons_cons]
      exact (he.append hs).append (ih fun g hg => h g (List.mem_cons_of_mem e hg))

theorem not_mem {c : Char} (h : Guarded p cs) (hp : ¬ p c) (hb : isBlank c = true) : c ∉ cs := by
  have hs : c ≠ '\\' := by rintro rfl; cases hb
  induction h with
  | nil => exact List.not_mem_nil
  | plain _ hd _ ih =>
    intro hm
    rcases List.mem_cons.1 hm with rfl | hm
    · exact hp hd
    · exact ih hm
  | escaped hd _ ih =>
    intro hm
    rcases List.mem_cons.1 hm with rfl | hm
    · exact hs rfl
    · rcases List.mem_cons.1 hm with rfl | hm
      · rw [hb] at hd; cases hd
      · exact ih hm

/-! ## Cutting -/

/-- A cut at a separator passes over a text that does not hold it. -/
theorem cutUnescaped?_append {sep : Char} (h : Guarded (· ≠ sep) cs) (rest : List Char) :
    cutUnescaped? sep (cs ++ rest) = (cutUnescaped? sep rest).map fun (l, r) => (cs ++ l, r) := by
  induction h with
  | nil => simp
  | plain hc hp _ ih =>
    rw [List.cons_append, cutUnescaped?.eq_def]
    simp only [if_neg hc, if_neg hp, ih, Option.map_map]
    rfl
  | escaped _ _ ih =>
    rw [List.cons_append, List.cons_append, cutUnescaped?.eq_def]
    simp only [if_true, ih, Option.map_map]
    rfl

theorem cutUnescaped?_cons {sep : Char} (h : Guarded (· ≠ sep) cs) (hs : sep ≠ '\\')
    (rest : List Char) : cutUnescaped? sep (cs ++ sep :: rest) = some (cs, rest) := by
  have hcut : cutUnescaped? sep (sep :: rest) = some ([], rest) := by
    rw [cutUnescaped?.eq_def]
    simp only [if_neg hs, if_true]
  rw [h.cutUnescaped?_append, hcut, Option.map_some]
  simp only [List.append_nil]

theorem cutUnescaped?_eq_none {sep : Char} (h : Guarded (· ≠ sep) cs) :
    cutUnescaped? sep cs = none := by
  have := h.cutUnescaped?_append []
  rwa [List.append_nil, cutUnescaped?, Option.map_none] at this

end Guarded

/-- Entries that hold no comma are read back from the text that commas join. -/
theorem splitEntries_intercalate {es : List (List Char)} (hne : es ≠ [])
    (h : ∀ e ∈ es, Guarded (· ≠ ',') e) : splitEntries ([','].intercalate es) = es := by
  induction es with
  | nil => exact absurd rfl hne
  | cons e es ih =>
    have he := h e (by simp)
    cases es with
    | nil =>
      rw [List.intercalate_singleton, splitEntries]
      split
      · rfl
      · rename_i hc
        rw [he.cutUnescaped?_eq_none] at hc
        cases hc
    | cons f fs =>
      have hcut := he.cutUnescaped?_cons (by decide) ([','].intercalate (f :: fs))
      have ih := ih (by simp) fun g hg => h g (List.mem_cons_of_mem e hg)
      rw [List.intercalate_cons_cons, List.append_assoc, List.singleton_append, splitEntries]
      split
      · rename_i hc
        rw [hcut] at hc
        cases hc
      · rename_i l r hc
        rw [hcut] at hc
        obtain ⟨rfl, rfl⟩ := Prod.mk.inj (Option.some.inj hc)
        rw [ih]

/-! ## Sealed text -/

theorem Sealed.isBlank_eq_false {cs : List Char} (h : Sealed cs) : ∀ c ∈ cs, isBlank c = false := by
  intro c hc
  rw [← Bool.not_eq_true]
  intro hb
  refine h.not_mem (fun hu => ?_) hb hc
  rw [hu.1] at hb
  cases hb

theorem sealed_hexText (width n : Nat) : Sealed (hexText width n) := by
  induction width generalizing n with
  | zero => exact .nil
  | succ width ih =>
    have hd : ∀ m : Fin 16, hexDigit m ≠ '\\' ∧ Unreserved (hexDigit m) := by decide
    obtain ⟨h₁, h₂⟩ := hd ⟨n % 16, Nat.mod_lt n (by decide)⟩
    exact (ih (n / 16)).append (.plain h₁ h₂ .nil)

theorem sealed_numericEscape (n : Nat) : Sealed ('\\' :: numericEscape n) := by
  unfold numericEscape
  split
  · exact .escaped (by decide) (sealed_hexText 2 n)
  · split
    · exact .escaped (by decide) (sealed_hexText 4 n)
    · exact .escaped (by decide) (sealed_hexText 8 n)

/-- A written symbol is sealed. -/
theorem sealed_escape (c : Char) : Sealed (escape c) := by
  unfold escape
  split
  · rename_i e he
    have hm := List.mem_of_find?_eq_some he
    have hall : ∀ e ∈ shortEscapes, isBlank e.2 = false := by decide
    exact .escaped (hall e hm) .nil
  · rename_i hn
    split
    · exact sealed_numericEscape _
    · rename_i hb
      have hne : ∀ d l, (d, l) ∈ shortEscapes → c ≠ d := by
        intro d l hm e
        have := List.find?_eq_none.1 hn (d, l) hm
        simp [e] at this
      have hblank : isBlank c = false := by
        rw [Bool.or_eq_true, not_or, Bool.not_eq_true, Bool.not_eq_true] at hb
        exact hb.2
      refine .plain (hne '\\' '\\' ?_) ⟨hblank, hne ',' ',' ?_, hne '#' '#' ?_, hne ':' ':' ?_⟩ .nil
      all_goals simp [shortEscapes]

theorem escape_ne_nil (c : Char) : escape c ≠ [] := by
  intro h
  have := readSymbol_escape c []
  rw [h] at this
  cases this

end FiniteAutomata
