import FiniteAutomata.Text.Blank

/-!
# Lines and words

Cutting text at a character, such as the line feed, and at runs of white space. Every function works
on lists of characters.
-/
namespace FiniteAutomata

/-- The pieces of a text between the occurrences of a character. -/
def pieces (sep : Char) : List Char → List (List Char)
  | [] => [[]]
  | c :: cs =>
    if c = sep then [] :: pieces sep cs
    else
      match pieces sep cs with
      | [] => [[c]]
      | l :: ls => (c :: l) :: ls

/-- The lines of a text: its pieces between line feeds. -/
def lines (cs : List Char) : List (List Char) := pieces '\n' cs

/-- The text without white space at its end. -/
def trimEnd : List Char → List Char
  | [] => []
  | c :: cs =>
    match trimEnd cs with
    | [] => if isBlank c then [] else [c]
    | d :: ds => c :: d :: ds

/-- The text without white space at its ends. -/
def trim (cs : List Char) : List Char := trimEnd (cs.dropWhile isBlank)

/-- The maximal runs of characters that are not white space. -/
def words : List Char → List (List Char)
  | [] => []
  | c :: cs =>
    if isBlank c then words cs
    else
      match cs with
      | [] => [[c]]
      | d :: _ =>
        if isBlank d then [c] :: words cs
        else
          match words cs with
          | [] => [[c]]
          | w :: ws => (c :: w) :: ws

theorem pieces_ne_nil (sep : Char) (cs : List Char) : pieces sep cs ≠ [] := by
  cases cs with
  | nil => simp [pieces]
  | cons c cs =>
    unfold pieces
    split
    · simp
    · split <;> simp

/-- Joining the pieces with the character gives the text back. -/
theorem intercalate_pieces (sep : Char) (cs : List Char) :
    [sep].intercalate (pieces sep cs) = cs := by
  induction cs with
  | nil => simp [pieces, List.intercalate]
  | cons c cs ih =>
    have hne := pieces_ne_nil sep cs
    unfold pieces
    split
    · rename_i h
      cases hp : pieces sep cs with
      | nil => exact absurd hp hne
      | cons l ls => rw [hp] at ih; simp [List.intercalate, h, ← ih]
    · split
      · rename_i h; exact absurd h hne
      · rename_i l ls h
        rw [h] at ih
        cases ls with
        | nil => simpa [List.intercalate] using ih
        | cons m ms => simp [List.intercalate, ← ih]

/-- A word is not empty and holds no white space. -/
theorem mem_words {cs w : List Char} (h : w ∈ words cs) : w ≠ [] ∧ ∀ c ∈ w, isBlank c = false := by
  fun_induction words cs generalizing w with
  | case1 => simp at h
  | case2 c cs hc ih => exact ih h
  | case3 c hc =>
    obtain rfl : w = [c] := by simpa using h
    simpa using hc
  | case4 c hc d ds hd ih =>
    rcases List.mem_cons.1 h with rfl | h
    · simpa using hc
    · exact ih h
  | case5 c hc d ds hd hw ih =>
    rw [hw] at h
    obtain rfl : w = [c] := by simpa using h
    simpa using hc
  | case6 c hc d ds hd v vs hw ih =>
    rw [hw] at h ih
    rcases List.mem_cons.1 h with rfl | h
    · have := (ih (w := v) (by simp)).2
      simp_all
    · exact ih (by simp [h])

end FiniteAutomata
