import FiniteAutomata.Proofs.Automaton.Validity
import FiniteAutomata.Proofs.Description.Lines

/-!
# Reading descriptions back

`Automaton.document` says what the description of an automaton says, without the text. The states that
it refers to need names that can be read (`Automaton.Readable`). Main theorem
`Document.ofText_description`: the description of such an automaton is read as its document, so
whatever a description loses is already lost in the document.
-/
namespace FiniteAutomata

/-! ## Documents -/

namespace Automaton

/-- The transitions of a row, with the displayed names of their targets. -/
def entryNames (a : Automaton) (row : Row) : List (Label × String) :=
  row.entries.flatMap fun e => e.2.toList.map fun r => (e.1, a.display r)

/-- What the description of the automaton says. -/
def document (a : Automaton) : Document where
  alphabet := if a.alphabet.isEmpty then [] else a.alphabet.symbols
  states := a.states.toList.map a.display
  initial := a.display a.initial
  accepting := a.finals.toList.map a.display
  rows := a.transitions.entries.map fun e => (a.display e.1, a.entryNames e.2)

/-- The initial state is declared, and the states that are listed as words do not have empty names. -/
structure Readable (a : Automaton) : Prop where
  initial : a.initial ∈ a.states
  states : ∀ q ∈ a.states, a.display q ≠ ""
  finals : ∀ q ∈ a.finals, a.display q ≠ ""
  targets : ∀ q label targets, a.targets? q label = some targets → ∀ r ∈ targets, a.display r ≠ ""

/-- Where everything is declared, the names of the declared states matter only. -/
theorem Closed.readable {a : Automaton} (hc : a.Closed) (h : ∀ q ∈ a.states, a.display q ≠ "") :
    a.Readable := by
  refine ⟨hc.initial, h, fun q hq => h q (hc.finals q hq), fun q label t ht r hr => ?_⟩
  exact h r (hc.targets q label t ht r hr)

/-! ## Texts -/

theorem symbolTexts_eq (a : Automaton) : a.symbolTexts = a.document.alphabet.map escape := by
  unfold symbolTexts document
  simp only
  split
  · rfl
  · rfl

theorem rowLine_eq (a : Automaton) (q : Nat) (row : Row) :
    a.rowLine q row = rowText (a.display q, a.entryNames row) := by
  have h : row.entries.flatMap (fun e => a.entryTexts e.1 e.2) =
      (a.entryNames row).map (' ' :: bareEntry ·) := by
    rw [entryNames, List.map_flatMap]
    refine congrArg (row.entries.flatMap ·) (funext fun e => ?_)
    rw [entryTexts, List.map_map]
    rfl
  rw [rowLine, h]
  rfl

theorem descriptionLines_eq (a : Automaton) :
    a.descriptionLines =
      [declarationLine .states (a.document.states.map escapeName),
        declarationLine .alphabet (a.document.alphabet.map escape),
        declarationLine .initial ([a.document.initial].map escapeName),
        declarationLine .accepting (a.document.accepting.map escapeName)] ++
      a.document.rows.map rowText := by
  unfold descriptionLines
  rw [symbolTexts_eq]
  simp only [document, List.map_map, rowLine_eq]
  rfl

end Automaton

/-! ## Sheets -/

namespace Sheet

theorem addText_of_parse? {s : Sheet} {raw : List Char} {n : Nat} {l : Line}
    (h : Line.parse? n raw = .ok (some l)) : s.addText (raw, n) = s.add l := by
  rw [addText, h]
  rfl

/-- A declaration that was not made before is recorded. -/
theorem addText_declarationLine {s : Sheet} {k : Keyword} (hs : s.line? k = none)
    {ws : List (List Char)} (h : ∀ w ∈ ws, Sealed w ∧ w ≠ []) (n : Nat) :
    ∃ l, s.addText (declarationLine k ws, n) = .ok (s.declare l k) ∧ words l.value = ws := by
  obtain ⟨value, hp, hw⟩ := parse?_declarationLine k h n
  refine ⟨⟨n, k.text.toList, value⟩, ?_, hw⟩
  rw [addText_of_parse? hp, add, Keyword.ofText?_text]
  simp only [hs]
  rfl

theorem addText_rowText (s : Sheet) {r : String × List (Label × String)} (h : ∀ e ∈ r.2, e.2 ≠ "")
    (n : Nat) : s.addText (rowText r, n) =
      .ok { s with rows := s.rows ++ [⟨n, escapeName r.1, trim (rowValue r.2)⟩] } := by
  rw [addText_of_parse? (parse?_rowText h n), add, Keyword.ofText?_escapeName]

/-- Lines of transitions are recorded in order. -/
theorem foldlM_addText_rows {rs : List (String × List (Label × String))}
    (h : ∀ r ∈ rs, ∀ e ∈ r.2, e.2 ≠ "") (s : Sheet) (n : Nat) :
    ∃ ls, ((rs.map rowText).zipIdx n).foldlM addText s = .ok { s with rows := s.rows ++ ls } ∧
      ls.mapM Line.row = .ok rs := by
  induction rs generalizing s n with
  | nil => exact ⟨[], by rw [List.append_nil]; rfl, rfl⟩
  | cons r rs ih =>
    have hr := h r (by simp)
    obtain ⟨ls, hf, hm⟩ := ih (fun p hp => h p (List.mem_cons_of_mem r hp))
      { s with rows := s.rows ++ [⟨n, escapeName r.1, trim (rowValue r.2)⟩] } (n + 1)
    refine ⟨⟨n, escapeName r.1, trim (rowValue r.2)⟩ :: ls, ?_, ?_⟩
    · rw [List.map_cons, List.zipIdx_cons, List.foldlM_cons, addText_rowText s hr]
      refine hf.trans ?_
      rw [List.append_assoc, List.singleton_append]
    · rw [List.mapM_cons, row_eq_ok n r.1 hr, hm]
      rfl

end Sheet

/-! ## Reading -/

theorem Sheet.require_eq_ok {s : Sheet} {k : Keyword} {l : Line} :
    s.require k = .ok l ↔ s.line? k = some l := by
  unfold Sheet.require
  cases s.line? k <;> simp

/-- The document of a sheet, from its required declarations and its rows. -/
theorem Document.ofSheet_eq_ok {s : Sheet} {d : Document} :
    Document.ofSheet s = .ok d ↔ ∃ l₁ l₂ l₃, s.line? .states = some l₁ ∧ s.line? .alphabet = some l₂ ∧
      s.line? .initial = some l₃ ∧ (words l₂.value).mapM (symbolOn l₂.number) = .ok d.alphabet ∧
      l₁.names = .ok d.states ∧ l₃.names = .ok [d.initial] ∧ d.initial ∈ d.states ∧
      (s.line? .accepting).elim (.ok []) Line.names = .ok d.accepting ∧
      s.rows.mapM Line.row = .ok d.rows := by
  constructor
  · intro h
    obtain ⟨l₁, h₁, h⟩ := bind_eq_ok.1 h
    obtain ⟨l₂, h₂, h⟩ := bind_eq_ok.1 h
    obtain ⟨l₃, h₃, h⟩ := bind_eq_ok.1 h
    obtain ⟨alphabet, ha, h⟩ := bind_eq_ok.1 h
    obtain ⟨states, hs, h⟩ := bind_eq_ok.1 h
    obtain ⟨names, hn, h⟩ := bind_eq_ok.1 h
    refine ⟨l₁, l₂, l₃, Sheet.require_eq_ok.1 h₁, Sheet.require_eq_ok.1 h₂, Sheet.require_eq_ok.1 h₃, ?_⟩
    dsimp only at h
    split at h
    · rename_i name
      split at h
      · rename_i hname
        obtain ⟨initial, hi, h⟩ := bind_eq_ok.1 h
        obtain rfl : name = initial := Except.ok.inj hi
        split at h
        all_goals
          rename_i hacc
          obtain ⟨accepting, hf, h⟩ := bind_eq_ok.1 h
          obtain ⟨rows, hr, h⟩ := bind_eq_ok.1 h
          obtain rfl := Except.ok.inj h
          rw [Sheet.line?, hacc]
          exact ⟨ha, hs, hn, hname, hf, hr⟩
      · obtain ⟨initial, hi, -⟩ := bind_eq_ok.1 h
        cases hi
    · obtain ⟨initial, hi, -⟩ := bind_eq_ok.1 h
      cases hi
  · obtain ⟨alphabet, states, initial, accepting, rows⟩ := d
    rintro ⟨l₁, l₂, l₃, h₁, h₂, h₃, ha, hs, hn, hi, hf, hr⟩
    rw [Document.ofSheet, Sheet.require_eq_ok.2 h₁, Sheet.require_eq_ok.2 h₂, Sheet.require_eq_ok.2 h₃]
    simp only [bind, Except.bind, ha, hs, hn, if_pos hi, hr, pure, Except.pure]
    rw [Sheet.line?] at hf
    cases hacc : s.accepting with
    | none =>
      rw [hacc] at hf
      obtain rfl := Except.ok.inj hf
      rfl
    | some l =>
      rw [hacc, Option.elim_some] at hf
      simp only [hf]
theorem names_eq_ok {l : Line} {names : List String} (h : words l.value = names.map escapeName) :
    l.names = .ok names := by
  rw [Line.names, h, mapM_map_eq_ok fun name _ => nameOn_escapeName l.number name, List.map_id']

theorem sealed_names {names : List String} (h : ∀ n ∈ names, n ≠ "") :
    ∀ w ∈ names.map escapeName, Sealed w ∧ w ≠ [] := by
  intro w hw
  obtain ⟨n, hn, rfl⟩ := List.mem_map.1 hw
  exact ⟨sealed_escapeName n, escapeName_ne_nil (h n hn)⟩

theorem sealed_symbols (cs : List Char) : ∀ w ∈ cs.map escape, Sealed w ∧ w ≠ [] := by
  intro w hw
  obtain ⟨c, -, rfl⟩ := List.mem_map.1 hw
  exact ⟨sealed_escape c, escape_ne_nil c⟩

namespace Automaton

variable {a : Automaton}

theorem Readable.entryNames (h : a.Readable) {q : Nat} {row : Row} (hr : a.row? q = some row) :
    ∀ e ∈ a.entryNames row, e.2 ≠ "" := by
  intro e he
  obtain ⟨⟨label, targets⟩, hl, he⟩ := List.mem_flatMap.1 he
  obtain ⟨r, hrt, rfl⟩ := List.mem_map.1 he
  exact h.targets q label targets (targets?_eq_some.2 ⟨row, hr, Table.get?_eq_some.2 hl⟩) r hrt

theorem Readable.rows (h : a.Readable) : ∀ r ∈ a.document.rows, ∀ e ∈ r.2, e.2 ≠ "" := by
  intro r hr
  obtain ⟨⟨q, row⟩, hm, rfl⟩ := List.mem_map.1 hr
  exact h.entryNames (Table.get?_eq_some.2 hm)

theorem Readable.names (h : a.Readable) :
    (∀ n ∈ a.document.states, n ≠ "") ∧ (∀ n ∈ [a.document.initial], n ≠ "") ∧
      ∀ n ∈ a.document.accepting, n ≠ "" := by
  refine ⟨fun n hn => ?_, fun n hn => ?_, fun n hn => ?_⟩
  · obtain ⟨q, hq, rfl⟩ := List.mem_map.1 hn
    exact h.states q hq
  · obtain rfl := List.mem_singleton.1 hn
    exact h.states a.initial h.initial
  · obtain ⟨q, hq, rfl⟩ := List.mem_map.1 hn
    exact h.finals q hq

theorem Readable.lines (h : a.Readable) : lines a.description.toList = a.descriptionLines ++ [[]] := by
  obtain ⟨hs, hi, hf⟩ := h.names
  have hdecl : ∀ {k : Keyword} {ws : List (List Char)}, (∀ w ∈ ws, Sealed w ∧ w ≠ []) →
      '\n' ∉ declarationLine k ws := fun hw =>
    (inline_declarationLine _ fun w hm => (hw w hm).1).newline_not_mem
  rw [description, String.toList_ofList]
  refine lines_flatMap fun l hl => ?_
  rw [descriptionLines_eq] at hl
  rcases List.mem_append.1 hl with hl | hl
  · simp only [List.mem_cons, List.not_mem_nil, or_false] at hl
    rcases hl with rfl | rfl | rfl | rfl
    · exact hdecl (sealed_names hs)
    · exact hdecl (sealed_symbols _)
    · exact hdecl (sealed_names hi)
    · exact hdecl (sealed_names hf)
  · obtain ⟨r, -, rfl⟩ := List.mem_map.1 hl
    exact (inline_rowText r).newline_not_mem

/-- The sheet of a description has its four declarations and its rows. -/
theorem Readable.sheet (h : a.Readable) :
    ∃ l₁ l₂ l₃ l₄ ls, Sheet.ofText a.description.toList = .ok ⟨some l₁, some l₂, some l₃, some l₄, ls⟩ ∧
      words l₁.value = a.document.states.map escapeName ∧
      words l₂.value = a.document.alphabet.map escape ∧
      words l₃.value = [a.document.initial].map escapeName ∧
      words l₄.value = a.document.accepting.map escapeName ∧
      ls.mapM Line.row = .ok a.document.rows := by
  obtain ⟨hs, hi, hf⟩ := h.names
  obtain ⟨l₁, h₁, hw₁⟩ :=
    Sheet.addText_declarationLine (s := {}) (k := .states) rfl (sealed_names hs) 1
  obtain ⟨l₂, h₂, hw₂⟩ := Sheet.addText_declarationLine (s := { states := some l₁ })
    (k := .alphabet) rfl (sealed_symbols a.document.alphabet) 2
  obtain ⟨l₃, h₃, hw₃⟩ := Sheet.addText_declarationLine
    (s := { states := some l₁, alphabet := some l₂ }) (k := .initial) rfl (sealed_names hi) 3
  obtain ⟨l₄, h₄, hw₄⟩ := Sheet.addText_declarationLine
    (s := { states := some l₁, alphabet := some l₂, initial := some l₃ }) (k := .accepting) rfl
    (sealed_names hf) 4
  obtain ⟨ls, hls, hm⟩ := Sheet.foldlM_addText_rows h.rows ⟨some l₁, some l₂, some l₃, some l₄, []⟩ 5
  refine ⟨l₁, l₂, l₃, l₄, ls, ?_, hw₁, hw₂, hw₃, hw₄, hm⟩
  rw [Sheet.ofText, h.lines, descriptionLines_eq, List.append_assoc, List.cons_append, List.cons_append,
    List.cons_append, List.cons_append, List.nil_append]
  simp only [List.zipIdx_cons, List.foldlM_cons, List.zipIdx_append, List.foldlM_append]
  simp only [h₁, h₂, h₃, h₄, hls, Sheet.declare, bind, Except.bind]
  rfl

end Automaton

/-- **A description is read as the document of its automaton**, when the names in it can be read. -/
theorem Document.ofText_description {a : Automaton} (h : a.Readable) :
    Document.ofText a.description = .ok a.document := by
  obtain ⟨l₁, l₂, l₃, l₄, ls, hsheet, hw₁, hw₂, hw₃, hw₄, hrows⟩ := h.sheet
  have hsymbols : (words l₂.value).mapM (symbolOn l₂.number) = .ok a.document.alphabet := by
    rw [hw₂, mapM_map_eq_ok fun c _ => symbolOn_escape l₂.number c, List.map_id']
  have hinitial : a.document.initial ∈ a.document.states := List.mem_map_of_mem h.initial
  refine bind_eq_ok.2 ⟨_, hsheet, ofSheet_eq_ok.2 ⟨l₁, l₂, l₃, rfl, rfl, rfl, hsymbols, names_eq_ok hw₁, ?_⟩⟩
  exact ⟨names_eq_ok hw₃, hinitial, names_eq_ok hw₄, hrows⟩

end FiniteAutomata
