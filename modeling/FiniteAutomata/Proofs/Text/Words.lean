import FiniteAutomata.Text.Words

/-!
# Reading lines and words back

What is written line by line, or as words that are each preceded by a space, is cut into the same
lines and words. White space at the ends of a text does not change its words.
-/
namespace FiniteAutomata

/-! ## Lines -/

theorem pieces_append {sep : Char} {l : List Char} (h : sep ∉ l) (rest : List Char) :
    pieces sep (l ++ sep :: rest) = l :: pieces sep rest := by
  induction l with
  | nil => simp [pieces]
  | cons c l ih =>
    have hc : c ≠ sep := fun e => h (by simp [e])
    have hl : sep ∉ l := fun hm => h (by simp [hm])
    rw [List.cons_append, pieces, if_neg hc, ih hl]

/-- Lines that each end with a line feed are read back, with an empty one after the last line feed. -/
theorem lines_flatMap {ls : List (List Char)} (h : ∀ l ∈ ls, '\n' ∉ l) :
    lines (ls.flatMap (· ++ ['\n'])) = ls ++ [[]] := by
  induction ls with
  | nil => rfl
  | cons l ls ih =>
    have ih := ih fun m hm => h m (by simp [hm])
    unfold lines at ih ⊢
    rw [List.flatMap_cons, List.append_assoc, List.singleton_append, pieces_append (h l (by simp)), ih,
      List.cons_append]

/-! ## White space at the ends -/

/-- The text has a character, and its last one is not white space. -/
def Tight (cs : List Char) : Prop := ∃ c, cs.getLast? = some c ∧ isBlank c = false

theorem trimEnd_cons_of_ne_nil {cs : List Char} (h : trimEnd cs ≠ []) (c : Char) :
    trimEnd (c :: cs) = c :: trimEnd cs := by
  cases ht : trimEnd cs with
  | nil => exact absurd ht h
  | cons d ds => rw [trimEnd, ht]

theorem trimEnd_eq_self {cs : List Char} (h : Tight cs) : trimEnd cs = cs := by
  obtain ⟨c, hc, hb⟩ := h
  induction cs with
  | nil => cases hc
  | cons d ds ih =>
    cases ds with
    | nil =>
      have hd : d = c := by simpa using hc
      simp [trimEnd, hd, hb]
    | cons e es =>
      rw [List.getLast?_cons_cons] at hc
      have := ih hc
      rw [trimEnd_cons_of_ne_nil (by rw [this]; simp), this]

theorem trimEnd_eq_nil {cs : List Char} : trimEnd cs = [] ↔ ∀ c ∈ cs, isBlank c = true := by
  induction cs with
  | nil => simp [trimEnd]
  | cons c cs ih =>
    rw [List.forall_mem_cons, ← ih]
    by_cases ht : trimEnd cs = []
    · simp [trimEnd, ht]
    · simp [trimEnd_cons_of_ne_nil ht, ht]

/-- Only white space is trimmed away altogether. -/
theorem trim_eq_nil {cs : List Char} : trim cs = [] ↔ ∀ c ∈ cs, isBlank c = true := by
  rw [trim, trimEnd_eq_nil]
  constructor
  · intro h c hc
    rw [← List.takeWhile_append_dropWhile (p := isBlank) (l := cs)] at hc
    rcases List.mem_append.1 hc with hc | hc
    · exact List.all_eq_true.1 List.all_takeWhile c hc
    · exact h c hc
  · exact fun h c hc => h c ((List.dropWhile_sublist isBlank).subset hc)

theorem trimEnd_cons_congr {cs ds : List Char} (h : trimEnd cs = trimEnd ds) (c : Char) :
    trimEnd (c :: cs) = trimEnd (c :: ds) := by
  rw [trimEnd, trimEnd, h]

theorem dropWhile_isBlank_cons {c : Char} (h : isBlank c = false) (cs : List Char) :
    (c :: cs).dropWhile isBlank = c :: cs := List.dropWhile_cons_of_neg (by simp [h])

/-- White space is trimmed from the ends in either order. -/
theorem trimEnd_dropWhile (cs : List Char) :
    trimEnd (cs.dropWhile isBlank) = (trimEnd cs).dropWhile isBlank := by
  induction cs with
  | nil => rfl
  | cons c cs ih =>
    by_cases hc : isBlank c = true
    · rw [List.dropWhile_cons_of_pos hc, ih]
      by_cases ht : trimEnd cs = []
      · simp [trimEnd, ht, hc]
      · rw [trimEnd_cons_of_ne_nil ht, List.dropWhile_cons_of_pos hc]
    · rw [Bool.not_eq_true] at hc
      rw [dropWhile_isBlank_cons hc]
      by_cases ht : trimEnd cs = []
      · simp [trimEnd, ht, hc]
      · rw [trimEnd_cons_of_ne_nil ht, dropWhile_isBlank_cons hc]

theorem trim_congr {cs ds : List Char} (h : trimEnd cs = trimEnd ds) : trim cs = trim ds := by
  rw [trim, trim, trimEnd_dropWhile, trimEnd_dropWhile, h]

theorem Tight.append {cs : List Char} (h : Tight cs) (ds : List Char) : Tight (ds ++ cs) := by
  obtain ⟨c, hc, hb⟩ := h
  refine ⟨c, ?_, hb⟩
  rw [List.getLast?_append, hc, Option.some_or]

theorem Tight.cons {cs : List Char} (h : Tight cs) (c : Char) : Tight (c :: cs) := h.append [c]

/-- A word ends with a character that is not white space. -/
theorem tight_of_not_blank {w : List Char} (hne : w ≠ []) (h : ∀ c ∈ w, isBlank c = false) :
    Tight w :=
  ⟨w.getLast hne, List.getLast?_eq_some_getLast hne, h _ (List.getLast_mem hne)⟩

theorem trim_eq_self {cs : List Char} (hc : ∀ c, cs.head? = some c → isBlank c = false)
    (ht : Tight cs) : trim cs = cs := by
  cases cs with
  | nil => obtain ⟨c, h, -⟩ := ht; cases h
  | cons c cs => rw [trim, dropWhile_isBlank_cons (hc c rfl), trimEnd_eq_self ht]

/-! ## Words -/

theorem words_cons_of_blank {c : Char} (h : isBlank c = true) (cs : List Char) :
    words (c :: cs) = words cs := by
  rw [words.eq_def]
  simp only [h, if_true]

theorem words_singleton {c : Char} (h : isBlank c = false) : words [c] = [[c]] := by
  rw [words.eq_def]
  simp only [h, Bool.false_eq_true, if_false]

theorem words_cons_cons_of_blank {c d : Char} (hc : isBlank c = false) (hd : isBlank d = true)
    (cs : List Char) : words (c :: d :: cs) = [c] :: words (d :: cs) := by
  rw [words.eq_def]
  simp only [hc, hd, Bool.false_eq_true, if_false, if_true]

/-- A word ends where white space or the text's end follows. -/
theorem words_append {w rest : List Char} (hne : w ≠ []) (h : ∀ c ∈ w, isBlank c = false)
    (hr : ∀ c, rest.head? = some c → isBlank c = true) : words (w ++ rest) = w :: words rest := by
  induction w with
  | nil => exact absurd rfl hne
  | cons c w ih =>
    have hc : isBlank c = false := h c (by simp)
    cases w with
    | nil =>
      cases rest with
      | nil => exact words_singleton hc
      | cons d rest => exact words_cons_cons_of_blank hc (hr d rfl) rest
    | cons d w =>
      have hd : isBlank d = false := h d (by simp)
      have ih := ih (by simp) fun e he => h e (List.mem_cons_of_mem c he)
      rw [List.cons_append, List.cons_append, words.eq_def]
      simp only [hc, hd]
      rw [← List.cons_append, ih]
      rfl

theorem words_of_not_blank {w : List Char} (hne : w ≠ []) (h : ∀ c ∈ w, isBlank c = false) :
    words w = [w] := by
  have h : words (w ++ []) = w :: words [] := words_append hne h nofun
  rwa [List.append_nil] at h

/-- Words that are each preceded by a space are read back. -/
theorem words_flatMap {ws : List (List Char)}
    (h : ∀ w ∈ ws, w ≠ [] ∧ ∀ c ∈ w, isBlank c = false) : words (ws.flatMap (' ' :: ·)) = ws := by
  induction ws with
  | nil => rfl
  | cons w ws ih =>
    obtain ⟨hne, hw⟩ := h w (by simp)
    have ih := ih fun v hv => h v (by simp [hv])
    have hr : ∀ c, (ws.flatMap (' ' :: ·)).head? = some c → isBlank c = true := by
      intro c hc
      cases ws with
      | nil => cases hc
      | cons v vs => obtain rfl := Option.some.inj hc; rfl
    rw [List.flatMap_cons, List.cons_append, words_cons_of_blank rfl, words_append hne hw hr, ih]

theorem words_dropWhile (cs : List Char) : words (cs.dropWhile isBlank) = words cs := by
  induction cs with
  | nil => rfl
  | cons c cs ih =>
    by_cases hc : isBlank c = true
    · rw [List.dropWhile_cons_of_pos hc, ih, words_cons_of_blank hc]
    · rw [List.dropWhile_cons_of_neg hc]

theorem words_cons_of_words_eq_nil {c : Char} (hc : isBlank c = false) {cs : List Char}
    (h : words cs = []) : words (c :: cs) = [[c]] := by
  cases cs with
  | nil => exact words_singleton hc
  | cons d cs =>
    by_cases hd : isBlank d = true
    · rw [words_cons_cons_of_blank hc hd, h]
    · rw [words.eq_def]
      simp only [hc, hd, h, Bool.false_eq_true, if_false]

/-- A character goes on with the words after it only by what comes next. -/
theorem words_cons_congr {cs ds : List Char} (c : Char) (hh : cs.head? = ds.head?)
    (hw : words cs = words ds) : words (c :: cs) = words (c :: ds) := by
  cases cs with
  | nil =>
    cases ds with
    | nil => rfl
    | cons d ds => cases hh
  | cons d cs =>
    cases ds with
    | nil => cases hh
    | cons e ds =>
      obtain rfl : d = e := Option.some.inj hh
      rw [words.eq_def, words.eq_def (c :: d :: ds)]
      simp only [hw]

theorem head?_trimEnd {cs : List Char} (h : trimEnd cs ≠ []) : (trimEnd cs).head? = cs.head? := by
  cases cs with
  | nil => rfl
  | cons c cs =>
    rw [trimEnd] at h ⊢
    split
    · rename_i ht
      rw [ht] at h
      by_cases hc : isBlank c = true
      · simp [hc] at h
      · rw [if_neg hc]
        rfl
    · rfl

theorem words_trimEnd (cs : List Char) : words (trimEnd cs) = words cs := by
  induction cs with
  | nil => rfl
  | cons c cs ih =>
    by_cases ht : trimEnd cs = []
    · -- all that follows is white space
      rw [ht] at ih
      by_cases hc : isBlank c = true
      · have he : trimEnd (c :: cs) = [] := by rw [trimEnd, ht]; exact if_pos hc
        rw [he, words_cons_of_blank hc, ih]
      · have hc : isBlank c = false := by simpa using hc
        have he : trimEnd (c :: cs) = [c] := by rw [trimEnd, ht]; simp [hc]
        rw [he, words_singleton hc, words_cons_of_words_eq_nil hc ih.symm]
    · rw [trimEnd_cons_of_ne_nil ht]
      exact words_cons_congr c (head?_trimEnd ht) ih

@[simp] theorem words_trim (cs : List Char) : words (trim cs) = words cs := by
  rw [trim, words_trimEnd, words_dropWhile]

end FiniteAutomata
