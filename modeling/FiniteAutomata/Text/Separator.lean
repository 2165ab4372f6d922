/-!
# Separators that are not escaped

A backslash takes away the meaning of the character after it. A text is cut at its first separator
that is not escaped, or at all of its commas that are not.
-/
namespace FiniteAutomata

/-- The texts before and after the first occurrence of `sep` that no backslash escapes. -/
def cutUnescaped? (sep : Char) : List Char → Option (List Char × List Char)
  | [] => none
  | c :: cs =>
    if c = '\\' then
      match cs with
      | [] => none
      | d :: ds => (cutUnescaped? sep ds).map fun (l, r) => (c :: d :: l, r)
    else if c = sep then some ([], cs)
    else (cutUnescaped? sep cs).map fun (l, r) => (c :: l, r)

/-- A cut loses the separator alone. -/
theorem eq_of_cutUnescaped? {sep : Char} {cs l r : List Char}
    (h : cutUnescaped? sep cs = some (l, r)) :
    cs = l ++ sep :: r := by
  fun_induction cutUnescaped? sep cs generalizing l with
  | case1 => simp at h
  | case2 => simp at h
  | case3 d ds ih =>
    obtain ⟨⟨l', r'⟩, h', e⟩ := Option.map_eq_some_iff.1 h
    obtain ⟨rfl, rfl⟩ := Prod.mk.inj e
    simp [ih h']
  | case4 cs => simp at h; simp [h]
  | case5 c cs _ _ ih =>
    obtain ⟨⟨l', r'⟩, h', e⟩ := Option.map_eq_some_iff.1 h
    obtain ⟨rfl, rfl⟩ := Prod.mk.inj e
    simp [ih h']

theorem length_cutUnescaped? {sep : Char} {cs l r : List Char}
    (h : cutUnescaped? sep cs = some (l, r)) : r.length < cs.length := by
  rw [eq_of_cutUnescaped? h]; simp; omega

/-- The pieces of a text between its commas that are not escaped. -/
def splitEntries (cs : List Char) : List (List Char) :=
  match _h : cutUnescaped? ',' cs with
  | none => [cs]
  | some (l, r) => l :: splitEntries r
  termination_by cs.length
  decreasing_by exact length_cutUnescaped? _h

theorem splitEntries_ne_nil (cs : List Char) : splitEntries cs ≠ [] := by
  unfold splitEntries
  split <;> exact List.cons_ne_nil _ _

/-- Joining the pieces with commas gives the text back. -/
theorem intercalate_splitEntries (cs : List Char) : [','].intercalate (splitEntries cs) = cs := by
  fun_induction splitEntries cs with
  | case1 cs h => exact List.intercalate_singleton
  | case2 cs l r h ih =>
    rw [List.intercalate_cons_of_ne_nil (splitEntries_ne_nil r), ih, eq_of_cutUnescaped? h]
    simp

end FiniteAutomata
