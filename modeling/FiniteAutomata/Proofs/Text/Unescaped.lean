import FiniteAutomata.Text.Separator

/-!
# Separators that count

Whether a character of a text counts as a separator depends on the text before it. A backslash escapes the
character after it unless it is escaped itself, so a separator counts where the backslashes right before it
are an even number (`Clear`). Main statements: a text is cut at the first separator that counts
(`cutUnescaped?_eq_some`), and split into its parts between the commas that do (`mem_splitEntries`), so that
the commas between its entries are the ones that count (`commas_splitEntries`).
-/
namespace FiniteAutomata

/-! ## First places -/

section First
variable {P Q : List Char → Prop} {sep : Char} {cs l r l' r' : List Char}

/-- No text with the property comes right before the character. -/
def Lacks (P : List Char → Prop) (sep : Char) (cs : List Char) : Prop :=
  ∀ l r, cs = l ++ sep :: r → ¬ P l

/-- The texts before and after the first place of the character where the text before it has the property. -/
structure FirstPlace (P : List Char → Prop) (sep : Char) (cs l r : List Char) : Prop where
  eq : cs = l ++ sep :: r
  here : P l
  first : Lacks P sep l

theorem lacks_nil : Lacks P sep [] := by
  intro l r h
  simp at h

/-- A first character goes before each of the texts. -/
theorem Lacks.cons {c : Char} (h : Lacks Q sep cs) (hc : c = sep → ¬ P []) (hPQ : ∀ l, P (c :: l) → Q l) :
    Lacks P sep (c :: cs) := by
  intro l r e
  cases l with
  | nil => exact hc (List.cons.inj e).1
  | cons d l =>
    obtain ⟨rfl, hcs⟩ := List.cons.inj e
    exact fun hl => h l r hcs (hPQ l hl)

/-- A place with the property is the first one or comes after it. -/
theorem FirstPlace.same_or_later (h : FirstPlace P sep cs l r) (hcs : cs = l' ++ sep :: r') (hl' : P l') :
    (l' = l ∧ r' = r) ∨ ∃ m, l' = l ++ sep :: m ∧ r = m ++ sep :: r' := by
  rcases List.append_eq_append_iff.1 (hcs.symm.trans h.eq) with ⟨m, rfl, hm⟩ | ⟨m, rfl, hm⟩
  · cases m with
    | nil => exact .inl ⟨by simp, (List.cons.inj hm).2⟩
    | cons c m =>
      obtain ⟨rfl, -⟩ := List.cons.inj hm
      exact absurd hl' (h.first l' m rfl)
  · cases m with
    | nil => exact .inl ⟨by simp, (List.cons.inj hm).2.symm⟩
    | cons c m =>
      obtain ⟨rfl, hr⟩ := List.cons.inj hm
      exact .inr ⟨m, rfl, hr⟩

/-- **There is one first place at most.** -/
theorem FirstPlace.unique (h : FirstPlace P sep cs l r) (h' : FirstPlace P sep cs l' r') : l = l' ∧ r = r' := by
  rcases h.same_or_later h'.eq h'.here with ⟨rfl, rfl⟩ | ⟨m, rfl, -⟩
  · exact ⟨rfl, rfl⟩
  · exact absurd h.here (h'.first l m rfl)

end First

/-! ## Backslashes -/

/-- The backslashes at the end of the text are an even number, so none of them escapes what follows. -/
def Clear (cs : List Char) : Prop := (cs.reverse.takeWhile (· == '\\')).length % 2 = 0

instance (cs : List Char) : Decidable (Clear cs) :=
  inferInstanceAs (Decidable ((cs.reverse.takeWhile (· == '\\')).length % 2 = 0))

variable {sep c : Char} {cs l r l' r' e : List Char}

theorem clear_nil : Clear [] := rfl

theorem not_clear_backslash : ¬ Clear ['\\'] := nofun

/-- Backslashes before another character do not matter. -/
theorem clear_append_cons (hc : c ≠ '\\') : Clear (l ++ c :: r) ↔ Clear r := by
  have hrev : (l ++ c :: r).reverse = r.reverse ++ c :: l.reverse := by simp
  have hstop : (c :: l.reverse).takeWhile (· == '\\') = [] := List.takeWhile_cons_of_neg (by simpa using hc)
  unfold Clear
  rw [hrev, List.takeWhile_append, hstop, List.append_nil]
  split
  · rename_i h
    rw [h]
  · rfl

theorem clear_cons (hc : c ≠ '\\') : Clear (c :: r) ↔ Clear r := clear_append_cons (l := []) hc

/-- A backslash and the character that it escapes do not matter. -/
theorem clear_escaped : Clear ('\\' :: c :: r) ↔ Clear r := by
  by_cases hc : c = '\\'
  · subst hc
    have hrev : ('\\' :: '\\' :: r).reverse = r.reverse ++ ['\\', '\\'] := by simp
    unfold Clear
    rw [hrev, List.takeWhile_append]
    split
    · rename_i h
      simp [h]
    · rfl
  · exact clear_append_cons (l := ['\\']) hc

/-! ## Cutting at a separator -/

theorem Lacks.escaped (hs : sep ≠ '\\') (h : Lacks Clear sep cs) : Lacks Clear sep ('\\' :: c :: cs) := by
  have hc : Lacks (fun l => Clear ('\\' :: l)) sep (c :: cs) :=
    h.cons (fun _ => not_clear_backslash) fun _ => clear_escaped.1
  exact hc.cons (fun e => absurd e.symm hs) fun _ => id

theorem Lacks.plain (hc : c ≠ '\\') (hs : c ≠ sep) (h : Lacks Clear sep cs) : Lacks Clear sep (c :: cs) :=
  h.cons (fun e => absurd e hs) fun _ => (clear_cons hc).1

/-- What a cut finds out. -/
theorem cutUnescaped?_spec (hs : sep ≠ '\\') (cs : List Char) :
    match cutUnescaped? sep cs with
    | some (l, r) => FirstPlace Clear sep cs l r
    | none => Lacks Clear sep cs := by
  fun_induction cutUnescaped? sep cs with
  | case1 => exact lacks_nil
  | case2 => exact lacks_nil.cons (fun e => absurd e.symm hs) fun _ => id
  | case3 d ds ih =>
    cases hcut : cutUnescaped? sep ds with
    | none =>
      rw [hcut] at ih
      exact ih.escaped hs
    | some p =>
      rw [hcut] at ih
      exact ⟨congrArg _ (congrArg _ ih.eq), clear_escaped.2 ih.here, ih.first.escaped hs⟩
  | case4 cs hc => exact ⟨rfl, clear_nil, lacks_nil⟩
  | case5 c cs hc hne ih =>
    cases hcut : cutUnescaped? sep cs with
    | none =>
      rw [hcut] at ih
      exact ih.plain hc hne
    | some p =>
      rw [hcut] at ih
      exact ⟨congrArg _ ih.eq, (clear_cons hc).2 ih.here, ih.first.plain hc hne⟩

/-- **A text is cut at the first separator that is not escaped.** -/
theorem cutUnescaped?_eq_some (hs : sep ≠ '\\') :
    cutUnescaped? sep cs = some (l, r) ↔ FirstPlace Clear sep cs l r := by
  have hspec := cutUnescaped?_spec hs cs
  constructor
  · intro h
    rwa [h] at hspec
  · intro h
    cases hcut : cutUnescaped? sep cs with
    | none =>
      rw [hcut] at hspec
      exact absurd h.here (hspec l r h.eq)
    | some p =>
      rw [hcut] at hspec
      obtain ⟨rfl, rfl⟩ := h.unique hspec
      rfl

theorem cutUnescaped?_eq_none_iff (hs : sep ≠ '\\') : cutUnescaped? sep cs = none ↔ Lacks Clear sep cs := by
  have hspec := cutUnescaped?_spec hs cs
  constructor
  · intro h
    rwa [h] at hspec
  · intro h
    cases hcut : cutUnescaped? sep cs with
    | none => rfl
    | some p =>
      rw [hcut] at hspec
      exact absurd hspec.here (h _ _ hspec.eq)

/-- The separators that count are the first one and those that count in the text after it. -/
theorem FirstPlace.clear_iff (h : FirstPlace Clear sep cs l r) (hs : sep ≠ '\\') :
    cs = l' ++ sep :: r' ∧ Clear l' ↔
      (l' = l ∧ r' = r) ∨ ∃ m, l' = l ++ sep :: m ∧ r = m ++ sep :: r' ∧ Clear m := by
  constructor
  · rintro ⟨hcs, hl'⟩
    rcases h.same_or_later hcs hl' with hsame | ⟨m, rfl, hr⟩
    · exact .inl hsame
    · exact .inr ⟨m, rfl, hr, (clear_append_cons hs).1 hl'⟩
  · rintro (⟨rfl, rfl⟩ | ⟨m, rfl, rfl, hm⟩)
    · exact ⟨h.eq, h.here⟩
    · exact ⟨by simpa using h.eq, (clear_append_cons hs).2 hm⟩

/-! ## Splitting at all commas -/

/-- A part of the text between two neighbouring commas that are not escaped, the ends of the text counting as
such. Whether a comma is escaped can be told from the text after the comma before it. -/
def IsEntry (cs e : List Char) : Prop :=
  ∃ l r, cs = l ++ e ++ r ∧ (l = [] ∨ ∃ l', l = l' ++ [','] ∧ Clear l') ∧
    (r = [] ∨ Clear e ∧ ∃ r', r = ',' :: r') ∧ Lacks Clear ',' e

theorem isEntry_of_lacks (h : Lacks Clear ',' cs) : IsEntry cs e ↔ e = cs := by
  constructor
  · rintro ⟨l, r, rfl, hl, hr, -⟩
    have hl : l = [] := by
      rcases hl with rfl | ⟨l', rfl, hl'⟩
      · rfl
      · exact absurd hl' (h l' (e ++ r) (by simp))
    have hr : r = [] := by
      rcases hr with rfl | ⟨he, r', rfl⟩
      · rfl
      · exact absurd he (h e r' (by simp [hl]))
    simp [hl, hr]
  · rintro rfl
    exact ⟨[], [], by simp, .inl rfl, .inl rfl, h⟩

/-- The entries of a text are the text before its first comma that is not escaped and the entries of the rest. -/
theorem FirstPlace.isEntry_iff (h : FirstPlace Clear ',' cs l r) : IsEntry cs e ↔ e = l ∨ IsEntry r e := by
  constructor
  · rintro ⟨x, y, hxy, hx, hy, he⟩
    rcases hx with rfl | ⟨x', rfl, hx'⟩
    · -- the entry starts the text, so it ends at the first comma
      refine .inl ?_
      rcases hy with rfl | ⟨hclear, y', rfl⟩
      · exact absurd h.here (he l r (by simpa using hxy.symm.trans h.eq))
      · have hfirst : FirstPlace Clear ',' cs e y' := ⟨by simpa using hxy, hclear, he⟩
        exact (hfirst.unique h).1
    · -- the entry follows a comma, which is the first one or comes after it
      refine .inr ?_
      have heq : cs = x' ++ ',' :: (e ++ y) := by simpa using hxy
      rcases (h.clear_iff (by decide)).1 ⟨heq, hx'⟩ with ⟨-, hr⟩ | ⟨m, -, hr, hm⟩
      · exact ⟨[], y, by simpa using hr.symm, .inl rfl, hy, he⟩
      · exact ⟨m ++ [','], y, by simpa using hr, .inr ⟨m, rfl, hm⟩, hy, he⟩
  · rintro (rfl | ⟨x, y, rfl, hx, hy, he⟩)
    · exact ⟨[], ',' :: r, by simpa using h.eq, .inl rfl, .inr ⟨h.here, r, rfl⟩, h.first⟩
    · refine ⟨l ++ ',' :: x, y, by simpa using h.eq, .inr ?_, hy, he⟩
      rcases hx with rfl | ⟨x', rfl, hx'⟩
      · exact ⟨l, rfl, h.here⟩
      · exact ⟨l ++ ',' :: x', by simp, (clear_append_cons (by decide)).2 hx'⟩

/-- **A text is split into its parts between the commas that are not escaped.** -/
theorem mem_splitEntries : e ∈ splitEntries cs ↔ IsEntry cs e := by
  fun_induction splitEntries cs with
  | case1 cs hcut =>
    rw [List.mem_singleton, isEntry_of_lacks ((cutUnescaped?_eq_none_iff (by decide)).1 hcut)]
  | case2 cs l r hcut ih =>
    rw [List.mem_cons, ih, ((cutUnescaped?_eq_some (by decide)).1 hcut).isEntry_iff]

/-! ## The commas between entries -/

/-- The comma between the two texts separates two neighbouring entries: joined with commas, the entries up to
the first of the two give the text before it, and those from the second one on the text after it. -/
def Separates (l r : List Char) (entries : List (List Char)) : Prop :=
  ∃ before e e' after, entries = before ++ e :: e' :: after ∧
    [','].intercalate (before ++ [e]) = l ∧ [','].intercalate (e' :: after) = r

section Separates
variable {es : List (List Char)}

theorem not_separates_singleton : ¬ Separates l r [e] := by
  rintro ⟨before, e₁, e₂, after, h, -⟩
  have hlen := congrArg List.length h
  simp at hlen
  omega

theorem intercalate_cons_concat (e : List Char) (before : List (List Char)) (e₁ : List Char) :
    [','].intercalate (e :: before ++ [e₁]) = e ++ ',' :: [','].intercalate (before ++ [e₁]) := by
  rw [List.cons_append, List.intercalate_cons_of_ne_nil (by simp), List.append_assoc]
  rfl

/-- A comma comes right after the first entry or separates two of the others. -/
theorem separates_cons (hes : es ≠ []) :
    Separates l r (e :: es) ↔
      (l = e ∧ r = [','].intercalate es) ∨ ∃ m, l = e ++ ',' :: m ∧ Separates m r es := by
  constructor
  · rintro ⟨before, e₁, e₂, after, h, rfl, rfl⟩
    cases before with
    | nil =>
      obtain ⟨rfl, rfl⟩ := List.cons.inj h
      exact .inl ⟨List.intercalate_singleton, rfl⟩
    | cons b before =>
      obtain ⟨rfl, rfl⟩ := List.cons.inj h
      exact .inr ⟨_, intercalate_cons_concat e before e₁, before, e₁, e₂, after, rfl, rfl, rfl⟩
  · rintro (⟨rfl, rfl⟩ | ⟨m, rfl, before, e₁, e₂, after, rfl, rfl, rfl⟩)
    · obtain ⟨e', after, rfl⟩ := List.exists_cons_of_ne_nil hes
      exact ⟨[], l, e', after, rfl, List.intercalate_singleton, rfl⟩
    · exact ⟨e :: before, e₁, e₂, after, rfl, intercalate_cons_concat e before e₁, rfl⟩

/-- **The commas between the entries of a text are its commas that are not escaped.** -/
theorem separates_splitEntries : Separates l r (splitEntries cs) ↔ cs = l ++ ',' :: r ∧ Clear l := by
  fun_induction splitEntries cs generalizing l with
  | case1 cs hcut =>
    have hlacks := (cutUnescaped?_eq_none_iff (by decide)).1 hcut
    exact iff_of_false not_separates_singleton fun h => hlacks l r h.1 h.2
  | case2 cs l₀ r₀ hcut ih =>
    -- the comma of the cut comes first; the others are those of the rest, which is read from its start
    have hfirst := (cutUnescaped?_eq_some (by decide)).1 hcut
    rw [separates_cons (splitEntries_ne_nil r₀), intercalate_splitEntries, hfirst.clear_iff (by decide)]
    simp only [ih]

end Separates

/-- **A text is split at its commas that are not escaped, and nowhere else.** Joined with commas the entries
give the text back, no comma counts in an entry, and a comma of the text separates two entries exactly where
the backslashes right before it are an even number. -/
theorem commas_splitEntries (cs : List Char) :
    [','].intercalate (splitEntries cs) = cs ∧
      (∀ e ∈ splitEntries cs, Lacks Clear ',' e) ∧
      ∀ l r, cs = l ++ ',' :: r → (Separates l r (splitEntries cs) ↔ Clear l) := by
  refine ⟨intercalate_splitEntries cs, fun e he => ?_, fun l r hcs => ?_⟩
  · obtain ⟨-, -, -, -, -, hlacks⟩ := mem_splitEntries.1 he
    exact hlacks
  · rw [separates_splitEntries]
    exact and_iff_right hcs

/-- Of two commas, one after two backslashes and one after a single backslash, the first separates the two
entries and the second stays inside of one. -/
theorem commas_splitEntries_backslashes :
    "b\\,c".toList ∈ splitEntries "é\\\\,b\\,c".toList ∧ Lacks Clear ',' "b\\,c".toList ∧
      "é\\\\,b\\,c".toList = "é\\\\".toList ++ ',' :: "b\\,c".toList ∧
      Separates "é\\\\".toList "b\\,c".toList (splitEntries "é\\\\,b\\,c".toList) ∧
      "é\\\\,b\\,c".toList = "é\\\\,b\\".toList ++ ',' :: "c".toList ∧
      ¬ Separates "é\\\\,b\\".toList "c".toList (splitEntries "é\\\\,b\\,c".toList) := by
  have hmem : "b\\,c".toList ∈ splitEntries "é\\\\,b\\,c".toList := by
    simp [splitEntries, cutUnescaped?]
  obtain ⟨-, hlacks, hseparates⟩ := commas_splitEntries "é\\\\,b\\,c".toList
  refine ⟨hmem, hlacks _ hmem, rfl, (hseparates _ _ rfl).2 (by decide), rfl, ?_⟩
  exact fun h => absurd ((hseparates _ _ rfl).1 h) (by decide)

end FiniteAutomata
