import FiniteAutomata.Proofs.Description.Names

/-!
# Written names and symbols are tokens

The readers look for words, for separators and for the sign of a comment without reading the escapes
in between. What they must not find in a written name or symbol is not there: it is in one piece
(`OnePiece`), it is no reserved word, and it is read back as what it writes (`tokens_read_back`).
-/
namespace FiniteAutomata

/-- A text that no reader takes apart: it holds neither white space nor control characters, and no
separator outside of an escape. -/
structure OnePiece (cs : List Char) : Prop where
  printable : ∀ c ∈ cs, isBlank c = false ∧ isControl c = false
  no_colon : cutUnescaped? ':' cs = none
  no_comma : cutUnescaped? ',' cs = none

/-! ## Control characters -/

theorem isControl_hexText {width n : Nat} : ∀ c ∈ hexText width n, isControl c = false := by
  induction width generalizing n with
  | zero => exact List.forall_mem_nil _
  | succ width ih =>
    have hd : ∀ m : Fin 16, isControl (hexDigit m) = false := by decide
    intro c hc
    rcases List.mem_append.1 hc with hc | hc
    · exact ih c hc
    · obtain rfl := List.mem_singleton.1 hc
      exact hd ⟨n % 16, Nat.mod_lt n (by decide)⟩

/-- The letter of a width and the digits after it are printed characters. -/
theorem isControl_numericEscape {n : Nat} : ∀ c ∈ numericEscape n, isControl c = false := by
  have hcode : ∀ {l : Char} {width : Nat}, isControl l = false →
      ∀ c ∈ l :: hexText width n, isControl c = false :=
    fun hl => List.forall_mem_cons.2 ⟨hl, isControl_hexText⟩
  unfold numericEscape
  split
  · exact hcode (by decide)
  · split
    · exact hcode (by decide)
    · exact hcode (by decide)

/-- A control character is written by its escape. -/
theorem isControl_escape (c : Char) : ∀ d ∈ escape c, isControl d = false := by
  unfold escape
  split
  · rename_i e he
    have hall : ∀ e ∈ shortEscapes, isControl e.2 = false := by decide
    exact List.forall_mem_cons.2
      ⟨by decide, List.forall_mem_singleton.2 (hall e (List.mem_of_find?_eq_some he))⟩
  · split
    · exact List.forall_mem_cons.2 ⟨by decide, isControl_numericEscape⟩
    · rename_i hc
      rw [Bool.or_eq_true, not_or, Bool.not_eq_true] at hc
      exact List.forall_mem_singleton.2 hc.1

theorem isControl_escapeName (name : String) : ∀ d ∈ escapeName name, isControl d = false := by
  have hflat : ∀ cs : List Char, ∀ d ∈ cs.flatMap escape, isControl d = false := by
    intro cs d hd
    obtain ⟨c, -, hd⟩ := List.mem_flatMap.1 hd
    exact isControl_escape c d hd
  rcases escapeName_cases name with ⟨-, h⟩ | ⟨c, cs, -, -, h⟩
  · rw [h]
    exact hflat _
  · rw [h]
    exact List.forall_mem_cons.2 ⟨by decide, List.forall_mem_cons.2 ⟨by decide,
      List.forall_mem_append.2 ⟨isControl_hexText, hflat cs⟩⟩⟩

/-! ## Tokens -/

/-- Sealed text is in one piece when no control character is in it. -/
theorem Sealed.onePiece {cs : List Char} (h : Sealed cs) (hc : ∀ c ∈ cs, isControl c = false) :
    OnePiece cs where
  printable c hm := ⟨h.isBlank_eq_false c hm, hc c hm⟩
  no_colon := (h.mono fun _ hu => hu.2.2.2).cutUnescaped?_eq_none
  no_comma := (h.mono fun _ hu => hu.2.1).cutUnescaped?_eq_none

theorem onePiece_escape (c : Char) : OnePiece (escape c) :=
  (sealed_escape c).onePiece (isControl_escape c)

theorem onePiece_escapeName (name : String) : OnePiece (escapeName name) :=
  (sealed_escapeName name).onePiece (isControl_escapeName name)

/-- A comment sign is written with a backslash before it. -/
theorem Sealed.head?_ne_comment {cs : List Char} (h : Sealed cs) : cs.head? ≠ some '#' := by
  cases h with
  | nil => simp
  | plain _ hu _ =>
    intro e
    exact hu.2.2.1 (Option.some.inj e)
  | escaped _ _ => exact fun e => absurd (Option.some.inj e) (by decide)

theorem escapeName_ne_keyword (name : String) (k : Keyword) : escapeName name ≠ k.text.toList := by
  intro h
  have hk := Keyword.ofText?_escapeName name
  rw [h, Keyword.ofText?_text] at hk
  cases hk

/-- **Written names and symbols are tokens.** The text of a name is read back as that name, in one
piece, does not open a comment and is no keyword. The text of a symbol is read back as that symbol,
in one piece, and is not taken for the empty label. -/
theorem tokens_read_back :
    (∀ name : String, parseName? (escapeName name) = some name ∧ OnePiece (escapeName name) ∧
      (escapeName name).head? ≠ some '#' ∧ ∀ k : Keyword, escapeName name ≠ k.text.toList) ∧
    (∀ c : Char, parseSymbol? (escape c) = some c ∧ OnePiece (escape c) ∧
      escape c ≠ ['ε'] ∧ escape c ≠ ['e', 'p', 's']) :=
  ⟨fun name => ⟨parseName?_escapeName name, onePiece_escapeName name,
      (sealed_escapeName name).head?_ne_comment, escapeName_ne_keyword name⟩,
    fun c => ⟨parseSymbol?_escape c, onePiece_escape c, escape_ne_epsilon c, escape_ne_eps c⟩⟩

end FiniteAutomata
