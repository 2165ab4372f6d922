import FiniteAutomata.Description.Printer
import FiniteAutomata.Description.Reader
import FiniteAutomata.Proofs.Text.Guarded

/-!
# Reading names and labels back

The written form of a name is sealed, writes that name alone and is not a keyword. So is the written
form of a label, which writes that label: the letter `ε`, which alone stands for the empty label, is
escaped where it is a symbol.
-/
namespace FiniteAutomata

/-! ## Names -/

theorem Keyword.ofText?_eq_some {cs : List Char} {k : Keyword} (h : Keyword.ofText? cs = some k) :
    cs = k.text.toList := by
  have := List.find?_some h
  exact (beq_iff_eq.1 this).symm

@[simp] theorem Keyword.ofText?_text (k : Keyword) : Keyword.ofText? k.text.toList = some k := by
  cases k <;> decide

theorem Keyword.text_inj {k k' : Keyword} : k.text.toList = k'.text.toList ↔ k = k' := by
  refine ⟨fun h => ?_, fun h => h ▸ rfl⟩
  have := Keyword.ofText?_text k
  rw [h, Keyword.ofText?_text] at this
  exact (Option.some.inj this).symm

/-- The written form of a name that is a keyword. -/
theorem escapeName_of_keyword {name : String} {c : Char} {cs : List Char}
    (hk : (Keyword.ofText? name.toList).isSome = true) (hn : name.toList = c :: cs) :
    escapeName name = '\\' :: 'x' :: hexText 2 c.toNat ++ cs.flatMap escape := by
  rw [escapeName.eq_def, hk, hn]

theorem escapeName_of_not_keyword {name : String} (hk : Keyword.ofText? name.toList = none) :
    escapeName name = name.toList.flatMap escape := by
  rw [escapeName.eq_def, hk]
  rfl

/-- Keywords have a first character, which is written with two digits. -/
theorem Keyword.exists_cons {cs : List Char} (h : (Keyword.ofText? cs).isSome = true) :
    ∃ d ds, cs = d :: ds ∧ d.toNat < 256 := by
  obtain ⟨k, hk⟩ := Option.isSome_iff_exists.1 h
  rw [Keyword.ofText?_eq_some hk]
  cases k <;> exact ⟨_, _, rfl, by decide⟩

/-- Whether or not a name is a keyword decides how it is written. -/
theorem escapeName_cases (name : String) :
    (Keyword.ofText? name.toList = none ∧ escapeName name = name.toList.flatMap escape) ∨
      ∃ c cs, name.toList = c :: cs ∧ c.toNat < 256 ∧
        escapeName name = '\\' :: 'x' :: hexText 2 c.toNat ++ cs.flatMap escape := by
  by_cases hk : (Keyword.ofText? name.toList).isSome = true
  · obtain ⟨c, cs, hn, hc⟩ := Keyword.exists_cons hk
    exact Or.inr ⟨c, cs, hn, hc, escapeName_of_keyword hk hn⟩
  · have hk : Keyword.ofText? name.toList = none := by simpa using hk
    exact Or.inl ⟨hk, escapeName_of_not_keyword hk⟩

theorem sealed_escapeName (name : String) : Sealed (escapeName name) := by
  have hflat : ∀ cs : List Char, Sealed (cs.flatMap escape) := fun cs =>
    Guarded.flatMap fun c _ => sealed_escape c
  rcases escapeName_cases name with ⟨-, h⟩ | ⟨c, cs, -, -, h⟩
  · rw [h]
    exact hflat _
  · rw [h]
    exact .escaped (by decide) ((sealed_hexText 2 _).append (hflat cs))

/-- A written name is read back. -/
@[simp] theorem parseName?_escapeName (name : String) : parseName? (escapeName name) = some name := by
  have hread : readSymbols (escapeName name) = some name.toList := by
    rcases escapeName_cases name with ⟨-, h⟩ | ⟨c, cs, hn, hc, h⟩
    · rw [h, readSymbols_flatMap_escape]
    · have hr : readSymbol ('\\' :: 'x' :: hexText 2 c.toNat ++ cs.flatMap escape) =
          some (c, cs.flatMap escape) := by
        rw [List.cons_append, List.cons_append, readSymbol, if_pos rfl]
        exact readEscape_hexText rfl rfl hc (charOfCode?_toNat c) _
      rw [h, readSymbols_of_readSymbol hr, readSymbols_flatMap_escape, hn, Option.map_some]
  rw [parseName?, hread, Option.map_some, String.ofList_toList]

theorem escapeName_injective {n m : String} (h : escapeName n = escapeName m) : n = m := by
  have e := parseName?_escapeName n
  rw [h, parseName?_escapeName] at e
  exact (Option.some.inj e).symm

theorem escapeName_ne_nil {name : String} (h : name ≠ "") : escapeName name ≠ [] := fun e =>
  h (escapeName_injective (e.trans (by decide)))

/-- A written name is not taken for a keyword. -/
@[simp] theorem Keyword.ofText?_escapeName (name : String) :
    Keyword.ofText? (escapeName name) = none := by
  rw [Option.eq_none_iff_forall_ne_some]
  intro k hk
  have he := Keyword.ofText?_eq_some hk
  rcases escapeName_cases name with ⟨hn, h⟩ | ⟨c, cs, -, -, h⟩
  · -- a keyword writes itself, so the name is that keyword
    have hself : k.text.toList.flatMap escape = k.text.toList := by cases k <;> decide
    have hr := readSymbols_flatMap_escape name.toList
    rw [← h, he, ← hself, readSymbols_flatMap_escape] at hr
    rw [← Option.some.inj hr, Keyword.ofText?_text] at hn
    cases hn
  · rw [h] at he
    cases k <;> cases he

theorem nameOn_eq_ok {line : Nat} {w : List Char} {n : String} :
    nameOn line w = .ok n ↔ parseName? w = some n := by
  unfold nameOn
  cases parseName? w <;> simp

@[simp] theorem nameOn_escapeName (line : Nat) (name : String) :
    nameOn line (escapeName name) = .ok name :=
  nameOn_eq_ok.2 (parseName?_escapeName name)

/-! ## Symbols and labels -/

theorem symbolOn_eq_ok {line : Nat} {w : List Char} {c : Char} :
    symbolOn line w = .ok c ↔ parseSymbol? w = some c := by
  unfold symbolOn
  cases parseSymbol? w <;> simp

@[simp] theorem symbolOn_escape (line : Nat) (c : Char) : symbolOn line (escape c) = .ok c :=
  symbolOn_eq_ok.2 (parseSymbol?_escape c)

/-- The letter that stands for the empty label is escaped where it is a symbol. -/
theorem escape_ne_epsilon (c : Char) : escape c ≠ ['ε'] := by
  intro h
  have hp := parseSymbol?_escape c
  rw [h] at hp
  obtain rfl : 'ε' = c := Option.some.inj hp
  exact absurd h (by decide)

/-- No symbol is written as a word of several letters. -/
theorem escape_ne_eps (c : Char) : escape c ≠ ['e', 'p', 's'] := by
  intro h
  have hp := parseSymbol?_escape c
  rw [h] at hp
  cases hp

theorem sealed_labelText (label : Label) : Sealed (labelText label) := by
  cases label with
  | none => exact .plain (by decide) (by decide) .nil
  | some c => exact sealed_escape c

theorem labelText_ne_nil (label : Label) : labelText label ≠ [] := by
  cases label with
  | none => exact List.cons_ne_nil _ _
  | some c => exact escape_ne_nil c

/-- A written label is read back. -/
@[simp] theorem labelOn_labelText (line : Nat) (label : Label) :
    labelOn line (labelText label) = .ok label := by
  cases label with
  | none => exact if_pos (Or.inl rfl)
  | some c =>
    have hne : ¬ (escape c = ['ε'] ∨ escape c = ['e', 'p', 's']) :=
      not_or.2 ⟨escape_ne_epsilon c, escape_ne_eps c⟩
    rw [labelText, labelOn, if_neg hne, symbolOn_escape]
    rfl

end FiniteAutomata
