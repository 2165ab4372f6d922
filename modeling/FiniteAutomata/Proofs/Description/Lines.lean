import FiniteAutomata.Proofs.Description.Names
import FiniteAutomata.Proofs.Except
import FiniteAutomata.Proofs.Text.Words

/-!
# Reading lines back

A line that is written for a declaration or for the transitions of a state is read as what it was
written for: the words of the declaration (`parse?_declarationLine`), and the source and the
transitions (`parse?_rowText`, `row_eq_ok`). No written line holds a comment or a line feed.
-/
namespace FiniteAutomata

/-! ## Lines -/

/-- A character that may stand anywhere in a line. -/
def Inline (c : Char) : Prop := c ≠ '\n' ∧ c ≠ '#'

theorem Unreserved.inline {c : Char} (h : Unreserved c) : Inline c := by
  refine ⟨?_, h.2.2.1⟩
  rintro rfl
  cases h.1

theorem Sealed.inline {cs : List Char} (h : Sealed cs) : Guarded Inline cs :=
  h.mono fun _ => Unreserved.inline

theorem Guarded.newline_not_mem {cs : List Char} (h : Guarded Inline cs) : '\n' ∉ cs :=
  h.not_mem (fun hi => hi.1 rfl) rfl

/-- Where no `#` stands outside of an escape, there is no comment. -/
theorem stripCommentFrom_eq_self {cs : List Char} (h : Guarded Inline cs) (wordStart : Bool) :
    stripCommentFrom wordStart cs = cs := by
  induction h generalizing wordStart with
  | nil => rfl
  | plain _ hi _ ih => rw [stripCommentFrom, if_neg (fun e => hi.2 e.1), ih]
  | escaped _ _ ih =>
    rw [stripCommentFrom, if_neg (by simp), stripCommentFrom, if_neg (by simp [isBlank]), ih]

/-- A sealed key and what follows its colon are read off their line. -/
theorem Line.parse?_eq_ok {key value : List Char} (hk : Sealed key) (hv : Guarded Inline value)
    (ht : value = [] ∨ Tight value) (n : Nat) :
    Line.parse? n (key ++ ':' :: value) = .ok (some ⟨n, key, trim value⟩) := by
  have hline : Guarded Inline (key ++ ':' :: value) :=
    hk.inline.append (.plain (by decide) ⟨by decide, by decide⟩ hv)
  have hhead : ∀ c, (key ++ ':' :: value).head? = some c → isBlank c = false := by
    intro c hc
    cases key with
    | nil => obtain rfl := Option.some.inj hc; rfl
    | cons d ds => obtain rfl := Option.some.inj hc; exact hk.isBlank_eq_false _ (by simp)
  have htight : Tight (key ++ ':' :: value) := by
    rcases ht with rfl | ht
    · exact Tight.append ⟨':', rfl, rfl⟩ key
    · exact (ht.cons ':').append key
  have htrim : trim (stripComment (key ++ ':' :: value)) = key ++ ':' :: value := by
    rw [stripComment, stripCommentFrom_eq_self hline, trim_eq_self hhead htight]
  have hcut : cutUnescaped? ':' (key ++ ':' :: value) = some (key, value) :=
    (hk.mono fun c hc => hc.2.2.2).cutUnescaped?_cons (by decide) value
  have hkey : trim key = key := by
    cases key with
    | nil => rfl
    | cons c cs =>
      have hb := hk.isBlank_eq_false
      refine trim_eq_self (fun d hd => ?_) (tight_of_not_blank (List.cons_ne_nil c cs) hb)
      obtain rfl := Option.some.inj hd
      exact hb _ (by simp)
  rw [Line.parse?, htrim]
  split
  · rename_i hnil
    exact absurd hnil (by simp)
  · rw [hcut]
    simp only [hkey]

/-- Words that are each preceded by a space. -/
theorem spaced_cases {ws : List (List Char)} (h : ∀ w ∈ ws, Sealed w ∧ w ≠ []) :
    ws.flatMap (' ' :: ·) = [] ∨ Tight (ws.flatMap (' ' :: ·)) := by
  induction ws with
  | nil => exact Or.inl rfl
  | cons w ws ih =>
    obtain ⟨hs, hne⟩ := h w (by simp)
    rw [List.flatMap_cons]
    rcases ih fun v hv => h v (List.mem_cons_of_mem w hv) with hnil | ht
    · rw [hnil, List.append_nil]
      exact Or.inr ((tight_of_not_blank hne hs.isBlank_eq_false).cons ' ')
    · exact Or.inr (ht.append _)

theorem inline_space {cs : List Char} (h : Guarded Inline cs) : Guarded Inline (' ' :: cs) :=
  .plain (by decide) ⟨by decide, by decide⟩ h

theorem sealed_text (k : Keyword) : Sealed k.text.toList := by
  have hself : k.text.toList = k.text.toList.flatMap escape := by cases k <;> decide
  rw [hself]
  exact Guarded.flatMap fun c _ => sealed_escape c

/-- A declaration is read as the words that it declares. -/
theorem parse?_declarationLine (k : Keyword) {ws : List (List Char)}
    (h : ∀ w ∈ ws, Sealed w ∧ w ≠ []) (n : Nat) :
    ∃ value, Line.parse? n (declarationLine k ws) = .ok (some ⟨n, k.text.toList, value⟩) ∧
      words value = ws := by
  refine ⟨trim (ws.flatMap (' ' :: ·)), ?_, ?_⟩
  · exact Line.parse?_eq_ok (sealed_text k)
      (Guarded.flatMap fun w hw => inline_space (h w hw).1.inline) (spaced_cases h) n
  · rw [words_trim, words_flatMap fun w hw => ⟨(h w hw).2, (h w hw).1.isBlank_eq_false⟩]

theorem inline_declarationLine (k : Keyword) {ws : List (List Char)} (h : ∀ w ∈ ws, Sealed w) :
    Guarded Inline (declarationLine k ws) :=
  (sealed_text k).inline.append (.plain (by decide) ⟨by decide, by decide⟩
    (Guarded.flatMap fun w hw => inline_space (h w hw).inline))

/-! ## Transitions -/

/-- The written form of a transition to the state of a name, without the space before it. -/
def bareEntry (e : Label × String) : List Char := labelText e.1 ++ ' ' :: escapeName e.2

theorem guarded_bareEntry {p : Char → Prop} (hp : ∀ c, Unreserved c → p c) (hs : p ' ')
    (e : Label × String) : Guarded p (bareEntry e) :=
  ((sealed_labelText e.1).mono hp).append
    (.plain (by decide) hs ((sealed_escapeName e.2).mono hp))

theorem words_bareEntry {e : Label × String} (he : e.2 ≠ "") :
    words (bareEntry e) = [labelText e.1, escapeName e.2] := by
  have hn := words_of_not_blank (escapeName_ne_nil he) (sealed_escapeName e.2).isBlank_eq_false
  rw [bareEntry, words_append (labelText_ne_nil e.1) (sealed_labelText e.1).isBlank_eq_false,
    words_cons_of_blank rfl, hn]
  intro c hc
  obtain rfl := Option.some.inj hc
  rfl

theorem entryOn_eq_ok {e : Label × String} (he : e.2 ≠ "") {entry : List Char}
    (hw : words entry = words (bareEntry e)) (n : Nat) : entryOn n entry = .ok e := by
  rw [entryOn, hw, words_bareEntry he]
  simp only [labelOn_labelText, nameOn_escapeName]
  rfl

theorem tight_bareEntry {e : Label × String} (he : e.2 ≠ "") : Tight (bareEntry e) :=
  ((tight_of_not_blank (escapeName_ne_nil he) (sealed_escapeName e.2).isBlank_eq_false).cons ' ').append _

/-- The texts between the commas of a row: only the first one loses its space when the row is read. -/
def rowEntries : List (Label × String) → List (List Char)
  | [] => []
  | e :: es => bareEntry e :: es.map (' ' :: bareEntry ·)

/-- What a line of transitions says after its colon. -/
def rowValue (es : List (Label × String)) : List Char :=
  [','].intercalate (es.map (' ' :: bareEntry ·))

theorem intercalate_cons (sep x : List Char) (xs : List (List Char)) :
    ∃ rest, sep.intercalate (x :: xs) = x ++ rest := by
  cases xs with
  | nil => exact ⟨[], by rw [List.intercalate_singleton, List.append_nil]⟩
  | cons y ys => exact ⟨_, by rw [List.intercalate_cons_cons, List.append_assoc]⟩

theorem rowValue_cons (e : Label × String) (es : List (Label × String)) :
    rowValue (e :: es) = ' ' :: [','].intercalate (rowEntries (e :: es)) := by
  unfold rowValue
  cases es with
  | nil => rw [List.map_cons, List.map_nil, List.intercalate_singleton]; simp [rowEntries]
  | cons f fs =>
    simp only [rowEntries, List.map_cons, List.intercalate_cons_cons]
    rfl

theorem tight_rowValue {es : List (Label × String)} (hne : es ≠ []) (h : ∀ e ∈ es, e.2 ≠ "") :
    Tight (rowValue es) := by
  induction es with
  | nil => exact absurd rfl hne
  | cons e es ih =>
    unfold rowValue at ih ⊢
    cases es with
    | nil =>
      rw [List.map_cons, List.map_nil, List.intercalate_singleton]
      exact (tight_bareEntry (h e (by simp))).cons ' '
    | cons f fs =>
      rw [List.map_cons, List.map_cons, List.intercalate_cons_cons]
      exact Tight.append (ih (List.cons_ne_nil f fs) fun g hg => h g (List.mem_cons_of_mem e hg)) _

theorem inline_rowValue (es : List (Label × String)) : Guarded Inline (rowValue es) := by
  refine Guarded.intercalate (.plain (by decide) ⟨by decide, by decide⟩ .nil) fun x hx => ?_
  obtain ⟨e, -, rfl⟩ := List.mem_map.1 hx
  exact inline_space (guarded_bareEntry (fun _ => Unreserved.inline) ⟨by decide, by decide⟩ e)

theorem trim_rowValue {e : Label × String} {es : List (Label × String)}
    (h : ∀ f ∈ e :: es, f.2 ≠ "") :
    trim (rowValue (e :: es)) = [','].intercalate (rowEntries (e :: es)) := by
  have ht := tight_rowValue (List.cons_ne_nil e es) h
  -- the first entry starts with its label
  have hhead : ∃ d ds, [','].intercalate (rowEntries (e :: es)) = d :: ds ∧ isBlank d = false := by
    obtain ⟨rest, hr⟩ := intercalate_cons [','] (bareEntry e) (es.map (' ' :: bareEntry ·))
    obtain ⟨d, ds, hd⟩ := List.exists_cons_of_ne_nil (labelText_ne_nil e.1)
    refine ⟨d, ds ++ ' ' :: escapeName e.2 ++ rest, ?_, (sealed_labelText e.1).isBlank_eq_false d ?_⟩
    · rw [rowEntries, hr, bareEntry, hd]
      rfl
    · rw [hd]
      exact List.mem_cons_self
  obtain ⟨d, ds, hd, hb⟩ := hhead
  rw [rowValue_cons, hd] at ht
  rw [rowValue_cons, hd, trim, List.dropWhile_cons_of_pos rfl, dropWhile_isBlank_cons hb]
  obtain ⟨c, hc, hcb⟩ := ht
  exact trimEnd_eq_self ⟨c, by rwa [List.getLast?_cons_cons] at hc, hcb⟩

/-- The line of transitions of the state of a name. -/
def rowText (r : String × List (Label × String)) : List Char := escapeName r.1 ++ ':' :: rowValue r.2

theorem inline_rowText (r : String × List (Label × String)) : Guarded Inline (rowText r) :=
  (sealed_escapeName r.1).inline.append
    (.plain (by decide) ⟨by decide, by decide⟩ (inline_rowValue r.2))

theorem parse?_rowText {r : String × List (Label × String)} (h : ∀ e ∈ r.2, e.2 ≠ "") (n : Nat) :
    Line.parse? n (rowText r) = .ok (some ⟨n, escapeName r.1, trim (rowValue r.2)⟩) := by
  refine Line.parse?_eq_ok (sealed_escapeName r.1) (inline_rowValue r.2) ?_ n
  by_cases hr : r.2 = []
  · rw [hr]
    exact Or.inl rfl
  · exact Or.inr (tight_rowValue hr h)

/-- A line of transitions is read as its transitions. -/
theorem row_eq_ok (n : Nat) (name : String) {es : List (Label × String)} (h : ∀ e ∈ es, e.2 ≠ "") :
    Line.row ⟨n, escapeName name, trim (rowValue es)⟩ = .ok (name, es) := by
  cases es with
  | nil =>
    rw [Line.row, nameOn_escapeName]
    rfl
  | cons e es =>
    have hsplit : splitEntries (trim (rowValue (e :: es))) = rowEntries (e :: es) := by
      rw [trim_rowValue h]
      refine splitEntries_intercalate (List.cons_ne_nil _ _) fun x hx => ?_
      have hbare : ∀ f, Guarded (· ≠ ',') (bareEntry f) :=
        guarded_bareEntry (fun c hc => hc.2.1) (by decide)
      rcases List.mem_cons.1 hx with rfl | hx
      · exact hbare e
      · obtain ⟨f, -, rfl⟩ := List.mem_map.1 hx
        exact .plain (by decide) (by decide) (hbare f)
    have hne : (trim (rowValue (e :: es))).isEmpty = false := by
      rw [← Bool.not_eq_true, List.isEmpty_iff]
      intro hnil
      rw [hnil] at hsplit
      obtain ⟨d, ds, hd⟩ := List.exists_cons_of_ne_nil (labelText_ne_nil e.1)
      simp [splitEntries, cutUnescaped?, rowEntries, bareEntry, hd] at hsplit
    have hmap : (rowEntries (e :: es)).mapM (entryOn n) = .ok (e :: es) := by
      have htail : (es.map (' ' :: bareEntry ·)).mapM (entryOn n) = .ok (es.map id) :=
        mapM_map_eq_ok fun f hf =>
          entryOn_eq_ok (h f (List.mem_cons_of_mem e hf)) (words_cons_of_blank rfl _) n
      rw [rowEntries, List.mapM_cons, entryOn_eq_ok (h e (by simp)) rfl, htail, List.map_id]
      rfl
    rw [Line.row, nameOn_escapeName]
    simp only [hne, hsplit, hmap]
    rfl

end FiniteAutomata
