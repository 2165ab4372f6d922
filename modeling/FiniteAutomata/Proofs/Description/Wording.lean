import FiniteAutomata.Proofs.Alphabet.Refilling
import FiniteAutomata.Proofs.Description.Contents
import FiniteAutomata.Proofs.Description.Loading
import FiniteAutomata.Proofs.Description.Statements

/-!
# The texts that are loaded

What statements list is told without a reader: the words of a declaration, and the entries of the other lines.
Main theorem `ofDescription_iff`: a text is loaded exactly if its lines make statements that are well formed
(`WellFormed`), and the automaton then has the states, transitions and symbols that they list
(`Automaton.StatedBy`). An alphabet whose ranges overlap may miss a listed symbol (`ofDescription_disarranged`).
-/
namespace FiniteAutomata

/-! ## Entries -/

/-- The word writes the label: `ε` and `eps` write the empty one, other words their symbol. -/
def WritesLabel (w : List Char) : Label → Prop
  | none => w = ['ε'] ∨ w = ['e', 'p', 's']
  | some c => w ≠ ['ε'] ∧ parseSymbol? w = some c

/-- The entry is two words, for a label and a name. -/
def Writes (entry : List Char) (label : Label) (n : String) : Prop :=
  ∃ w v, words entry = [w, v] ∧ WritesLabel w label ∧ parseName? v = some n

variable {line : Nat} {w e : List Char} {c : Char} {label : Label} {m n : String}

theorem labelOn_eq_ok : labelOn line w = .ok label ↔ WritesLabel w label := by
  unfold labelOn
  by_cases hw : w = ['ε'] ∨ w = ['e', 'p', 's']
  · rw [if_pos hw]
    cases label with
    | none => exact iff_of_true rfl hw
    | some c =>
      refine iff_of_false nofun ?_
      rintro ⟨hne, hp⟩
      obtain rfl := hw.resolve_left hne
      cases hp
  · have hne : w ≠ ['ε'] := fun h => hw (.inl h)
    rw [if_neg hw, map_eq_ok]
    cases label with
    | none => simp [WritesLabel, hw]
    | some c => simp [WritesLabel, symbolOn_eq_ok, hne]

theorem entryOn_eq_ok_iff : entryOn line e = .ok (label, n) ↔ Writes e label n := by
  unfold entryOn
  constructor
  · intro h
    split at h
    · rename_i w v hwords
      obtain ⟨label', hl, h⟩ := bind_eq_ok.1 h
      obtain ⟨n', hn, h⟩ := bind_eq_ok.1 h
      obtain ⟨rfl, rfl⟩ := Prod.mk.inj (Except.ok.inj h)
      exact ⟨w, v, hwords, labelOn_eq_ok.1 hl, nameOn_eq_ok.1 hn⟩
    · cases h
  · rintro ⟨w, v, hwords, hl, hn⟩
    rw [hwords]
    exact bind_eq_ok.2 ⟨label, labelOn_eq_ok.2 hl, bind_eq_ok.2 ⟨n, nameOn_eq_ok.2 hn, rfl⟩⟩

theorem isEntry_nil : IsEntry [] e ↔ e = [] := by
  rw [← mem_splitEntries]
  simp [splitEntries, cutUnescaped?]

theorem not_writes_nil : ¬ Writes [] label n := by
  rintro ⟨w, v, hwords, -⟩
  cases hwords

/-! ## Lines -/

namespace Line

variable {l : Line} {ns : List String} {r : String × List (Label × String)}

theorem exists_names : (∃ ns, l.names = .ok ns) ↔ ∀ w ∈ words l.value, ∃ n, parseName? w = some n := by
  unfold names
  simp only [exists_mapM_eq_ok, nameOn_eq_ok]

theorem mem_names (h : l.names = .ok ns) : n ∈ ns ↔ ∃ w ∈ words l.value, parseName? w = some n := by
  simp only [mem_of_mapM_eq_ok h, nameOn_eq_ok]

/-- A list of one name is written by one word. -/
theorem names_eq_singleton : l.names = .ok [n] ↔ ∃ w, words l.value = [w] ∧ parseName? w = some n := by
  unfold names
  constructor
  · intro h
    cases hw : words l.value with
    | nil =>
      rw [hw] at h
      cases h
    | cons w ws =>
      rw [hw] at h
      obtain ⟨m, ms, hm, hms, he⟩ := mapM_cons_eq_ok.1 h
      obtain ⟨rfl, rfl⟩ := List.cons.inj he
      cases ws with
      | nil => exact ⟨w, rfl, nameOn_eq_ok.1 hm⟩
      | cons v vs =>
        obtain ⟨_, _, -, -, he⟩ := mapM_cons_eq_ok.1 hms
        cases he
  · rintro ⟨w, hw, hn⟩
    rw [hw]
    exact mapM_cons_eq_ok.2 ⟨n, [], nameOn_eq_ok.2 hn, rfl, rfl⟩

theorem row_eq_ok : l.row = .ok r ↔ parseName? l.key = some r.1 ∧
    (if l.value.isEmpty then .ok [] else (splitEntries l.value).mapM (entryOn l.number)) = .ok r.2 := by
  have hrow : l.row = nameOn l.number l.key >>= fun source =>
      (if l.value.isEmpty then .ok [] else (splitEntries l.value).mapM (entryOn l.number)) >>= fun es =>
        .ok (source, es) := by
    unfold row
    split <;> rfl
  obtain ⟨m, es⟩ := r
  simp only [hrow, bind_eq_ok, nameOn_eq_ok, Except.ok.injEq, Prod.mk.injEq]
  constructor
  · rintro ⟨_, hs, _, he, rfl, rfl⟩
    exact ⟨hs, he⟩
  · rintro ⟨hs, he⟩
    exact ⟨m, hs, es, he, rfl, rfl⟩

/-- **A line of transitions is read** exactly if a name is before the colon and entries are after it. -/
theorem exists_row : (∃ r, l.row = .ok r) ↔ (∃ n, parseName? l.key = some n) ∧
    (l.value ≠ [] → ∀ e, IsEntry l.value e → ∃ label n, Writes e label n) := by
  have hentries : (∃ es, (if l.value.isEmpty then .ok [] else
      (splitEntries l.value).mapM (entryOn l.number)) = .ok es) ↔
      (l.value ≠ [] → ∀ e, IsEntry l.value e → ∃ label n, Writes e label n) := by
    by_cases hv : l.value = []
    · simp [hv]
    · simp [hv, exists_mapM_eq_ok, mem_splitEntries, entryOn_eq_ok_iff]
  rw [← hentries]
  simp only [row_eq_ok, Prod.exists, exists_and_left, exists_and_right]

theorem mem_row (h : l.row = .ok r) : (label, n) ∈ r.2 ↔ ∃ e, IsEntry l.value e ∧ Writes e label n := by
  have hr := (row_eq_ok.1 h).2
  by_cases hv : l.value = []
  · have hnil : r.2 = [] := by simpa [hv, eq_comm] using hr
    simp [hv, hnil, isEntry_nil, not_writes_nil]
  · rw [if_neg (by simpa using hv)] at hr
    simp only [mem_of_mapM_eq_ok hr, mem_splitEntries, entryOn_eq_ok_iff]

end Line

/-! ## Statements -/

section Statements
variable {ss : List (List Char × List Char)} {k : Keyword} {s : Sheet}

/-- The word is one of those that the declaration lists. -/
def ListsWord (ss : List (List Char × List Char)) (k : Keyword) (w : List Char) : Prop :=
  ∃ v, (k.text.toList, v) ∈ ss ∧ w ∈ words v

/-- The declaration lists a word that writes the name. -/
def ListsName (ss : List (List Char × List Char)) (k : Keyword) (n : String) : Prop :=
  ∃ w, ListsWord ss k w ∧ parseName? w = some n

/-- The alphabet lists a word that writes the symbol. -/
def ListsSymbol (ss : List (List Char × List Char)) (c : Char) : Prop :=
  ∃ w, ListsWord ss .alphabet w ∧ parseSymbol? w = some c

/-- A line of transitions that opens with the source has an entry for the label and the target. -/
def ListsMove (ss : List (List Char × List Char)) (m : String) (label : Label) (n : String) : Prop :=
  ∃ key v e, (key, v) ∈ ss ∧ Keyword.ofText? key = none ∧ parseName? key = some m ∧ IsEntry v e ∧
    Writes e label n

/-- The statements that describe an automaton. -/
structure WellFormed (ss : List (List Char × List Char)) : Prop where
  once : DeclaredOnce ss
  required : ∀ k, k ≠ Keyword.accepting → ∃ v, (k.text.toList, v) ∈ ss
  symbols : ∀ w, ListsWord ss .alphabet w → ∃ c, parseSymbol? w = some c
  names : ∀ k w, k ≠ .alphabet → ListsWord ss k w → ∃ n, parseName? w = some n
  initial : ∃ v w n, (Keyword.initial.text.toList, v) ∈ ss ∧ words v = [w] ∧ parseName? w = some n ∧
    ListsName ss .states n
  rows : ∀ key v, (key, v) ∈ ss → Keyword.ofText? key = none →
    (∃ n, parseName? key = some n) ∧ (v ≠ [] → ∀ e, IsEntry v e → ∃ label n, Writes e label n)

/-- The declarations on a sheet list the words of their lines. -/
theorem Sheet.Records.listsWord_iff (h : s.Records ss) :
    ListsWord ss k w ↔ ∃ l, s.line? k = some l ∧ w ∈ words l.value := by
  constructor
  · rintro ⟨v, hv, hw⟩
    obtain ⟨l, hl, rfl⟩ := (h.declared k v).1 hv
    exact ⟨l, hl, hw⟩
  · rintro ⟨l, hl, hw⟩
    exact ⟨l.value, (h.declared k _).2 ⟨l, hl, rfl⟩, hw⟩

theorem Sheet.Records.listsWord_of_line? (h : s.Records ss) {l : Line} (hl : s.line? k = some l) :
    ListsWord ss k w ↔ w ∈ words l.value := by
  simp [h.listsWord_iff, hl]

theorem Sheet.Records.exists_names (h : s.Records ss) {l : Line} (hl : s.line? k = some l) :
    (∃ ns, l.names = .ok ns) ↔ ∀ w, ListsWord ss k w → ∃ n, parseName? w = some n := by
  simp only [Line.exists_names, h.listsWord_of_line? hl]

theorem Sheet.Records.exists_rows (h : s.Records ss) : (∃ rs, s.rows.mapM Line.row = .ok rs) ↔
    ∀ key v, (key, v) ∈ ss → Keyword.ofText? key = none →
      (∃ n, parseName? key = some n) ∧ (v ≠ [] → ∀ e, IsEntry v e → ∃ label n, Writes e label n) := by
  simp only [exists_mapM_eq_ok, Line.exists_row]
  constructor
  · intro hr key v hv hk
    obtain ⟨l, hl, rfl, rfl⟩ := (h.rows key v).1 ⟨hv, hk⟩
    exact hr l hl
  · intro hr l hl
    obtain ⟨hv, hk⟩ := (h.rows l.key l.value).2 ⟨l, hl, rfl, rfl⟩
    exact hr _ _ hv hk

end Statements

/-! ## Documents -/

namespace Document

variable {ss : List (List Char × List Char)} {s : Sheet} {d : Document} {text : String}

/-- The document lists what the statements list. -/
structure Lists (d : Document) (ss : List (List Char × List Char)) : Prop where
  alphabet : ∀ c, c ∈ d.alphabet ↔ ListsSymbol ss c
  states : ∀ n, n ∈ d.states ↔ ListsName ss .states n
  initial : ∀ n, n = d.initial ↔ ListsName ss .initial n
  accepting : ∀ n, n ∈ d.accepting ↔ ListsName ss .accepting n
  moves : ∀ m label n, d.HasMove m label n ↔ ListsMove ss m label n

theorem lists_of_ofSheet (hs : s.Records ss) (h : ofSheet s = .ok d) : d.Lists ss := by
  obtain ⟨l₁, l₂, l₃, h₁, h₂, h₃, ha, hstates, hi, -, hf, hr⟩ := ofSheet_eq_ok.1 h
  refine ⟨fun c => ?_, fun n => ?_, fun n => ?_, fun n => ?_, fun m label n => ?_⟩
  · simp only [mem_of_mapM_eq_ok ha, ListsSymbol, hs.listsWord_of_line? h₂, symbolOn_eq_ok]
  · simp only [Line.mem_names hstates, ListsName, hs.listsWord_of_line? h₁]
  · simp only [← List.mem_singleton, Line.mem_names hi, ListsName, hs.listsWord_of_line? h₃]
  · cases hl : s.line? .accepting with
    | none =>
      have hnil : d.accepting = [] := by simpa [hl, eq_comm] using hf
      simp [hnil, ListsName, hs.listsWord_iff, hl]
    | some l =>
      rw [hl, Option.elim_some] at hf
      simp only [Line.mem_names hf, ListsName, hs.listsWord_of_line? hl]
  · -- each row was read from a line, and each line has given a row
    simp only [HasMove, mem_of_mapM_eq_ok hr]
    constructor
    · rintro ⟨r, ⟨l, hl, hrow⟩, rfl, hm⟩
      obtain ⟨e, he, hw⟩ := (Line.mem_row hrow).1 hm
      obtain ⟨hss, hk⟩ := (hs.rows l.key l.value).2 ⟨l, hl, rfl, rfl⟩
      exact ⟨_, _, e, hss, hk, (Line.row_eq_ok.1 hrow).1, he, hw⟩
    · rintro ⟨key, v, e, hss, hk, hname, he, hw⟩
      obtain ⟨l, hl, rfl, rfl⟩ := (hs.rows key v).1 ⟨hss, hk⟩
      obtain ⟨r, hrow⟩ := exists_mapM_eq_ok.1 ⟨_, hr⟩ l hl
      have hm : r.1 = m := by simpa [hname, eq_comm] using (Line.row_eq_ok.1 hrow).1
      exact ⟨r, ⟨l, hl, hrow⟩, hm, (Line.mem_row hrow).2 ⟨e, he, hw⟩⟩

/-- Each declaration of names on the sheet of a document has been read. -/
theorem exists_names_of_ofSheet (h : ofSheet s = .ok d) {k : Keyword} {l : Line} (hk : k ≠ .alphabet)
    (hl : s.line? k = some l) : ∃ ns, l.names = .ok ns := by
  obtain ⟨l₁, l₂, l₃, h₁, -, h₃, -, hstates, hi, -, hf, -⟩ := ofSheet_eq_ok.1 h
  cases k with
  | states =>
    obtain rfl := Option.some.inj (h₁.symm.trans hl)
    exact ⟨_, hstates⟩
  | alphabet => exact absurd rfl hk
  | initial =>
    obtain rfl := Option.some.inj (h₃.symm.trans hl)
    exact ⟨_, hi⟩
  | accepting =>
    rw [hl, Option.elim_some] at hf
    exact ⟨_, hf⟩

/-- The statements on the sheet of a document are well formed. -/
theorem wellFormed_of_ofSheet (hs : s.Records ss) (h : ofSheet s = .ok d) : WellFormed ss := by
  obtain ⟨l₁, l₂, l₃, h₁, h₂, h₃, ha, -, hi, hmem, -, hr⟩ := ofSheet_eq_ok.1 h
  have hdeclared : ∀ {k l}, s.line? k = some l → (k.text.toList, l.value) ∈ ss := fun hl =>
    (hs.declared _ _).2 ⟨_, hl, rfl⟩
  refine ⟨hs.once, fun k hk => ?_, fun w hw => ?_, fun k w hk hw => ?_, ?_, hs.exists_rows.1 ⟨_, hr⟩⟩
  · cases k with
    | states => exact ⟨_, hdeclared h₁⟩
    | alphabet => exact ⟨_, hdeclared h₂⟩
    | initial => exact ⟨_, hdeclared h₃⟩
    | accepting => exact absurd rfl hk
  · obtain ⟨c, hc⟩ := exists_mapM_eq_ok.1 ⟨_, ha⟩ w ((hs.listsWord_of_line? h₂).1 hw)
    exact ⟨c, symbolOn_eq_ok.1 hc⟩
  · obtain ⟨l, hl, -⟩ := hs.listsWord_iff.1 hw
    exact (hs.exists_names hl).1 (exists_names_of_ofSheet h hk hl) w hw
  · obtain ⟨w, hw, hn⟩ := Line.names_eq_singleton.1 hi
    exact ⟨_, w, d.initial, hdeclared h₃, hw, hn, ((lists_of_ofSheet hs h).states _).1 hmem⟩

/-- A sheet has a document when its statements are well formed. -/
theorem exists_ofSheet (hs : s.Records ss) (h : WellFormed ss) : ∃ d, ofSheet s = .ok d := by
  have hline : ∀ k, k ≠ Keyword.accepting → ∃ l, s.line? k = some l := by
    intro k hk
    obtain ⟨v, hv⟩ := h.required k hk
    obtain ⟨l, hl, -⟩ := (hs.declared k v).1 hv
    exact ⟨l, hl⟩
  have hnames : ∀ {k l}, k ≠ Keyword.alphabet → s.line? k = some l → ∃ ns, l.names = .ok ns := fun hk hl =>
    (hs.exists_names hl).2 fun w => h.names _ w hk
  obtain ⟨l₁, h₁⟩ := hline .states (by decide)
  obtain ⟨l₂, h₂⟩ := hline .alphabet (by decide)
  obtain ⟨v, w, initial, hv, hw, hn, v', hlists, hp⟩ := h.initial
  obtain ⟨l₃, h₃, rfl⟩ := (hs.declared _ _).1 hv
  obtain ⟨alphabet, ha⟩ : ∃ cs, (words l₂.value).mapM (symbolOn l₂.number) = .ok cs := by
    refine exists_mapM_eq_ok.2 fun w hw => ?_
    obtain ⟨c, hc⟩ := h.symbols w ((hs.listsWord_of_line? h₂).2 hw)
    exact ⟨c, symbolOn_eq_ok.2 hc⟩
  obtain ⟨states, hstates⟩ := hnames (by decide) h₁
  obtain ⟨accepting, hf⟩ : ∃ ns, (s.line? .accepting).elim (.ok []) Line.names = .ok ns := by
    cases hl : s.line? .accepting with
    | none => exact ⟨[], rfl⟩
    | some l => exact hnames (by decide) hl
  obtain ⟨rows, hr⟩ := hs.exists_rows.2 h.rows
  have hmem : initial ∈ states := (Line.mem_names hstates).2 ⟨v', (hs.listsWord_of_line? h₁).1 hlists, hp⟩
  refine ⟨⟨alphabet, states, initial, accepting, rows⟩, ofSheet_eq_ok.2 ?_⟩
  exact ⟨l₁, l₂, l₃, h₁, h₂, h₃, ha, hstates, Line.names_eq_singleton.2 ⟨w, hw, hn⟩, hmem, hf, hr⟩

/-- **A text has a document** exactly if its lines make statements that are well formed. -/
theorem exists_ofText : (∃ d, ofText text = .ok d) ↔ ∃ ss, Statements (lines text.toList) ss ∧ WellFormed ss := by
  unfold ofText
  simp only [bind_eq_ok]
  constructor
  · rintro ⟨d, s, hsheet, hd⟩
    obtain ⟨ss, hss, -⟩ := Sheet.exists_ofText.1 ⟨s, hsheet⟩
    exact ⟨ss, hss, wellFormed_of_ofSheet (Sheet.records_ofText hsheet hss) hd⟩
  · rintro ⟨ss, hss, hw⟩
    obtain ⟨s, hsheet⟩ := Sheet.exists_ofText.2 ⟨ss, hss, hw.once⟩
    obtain ⟨d, hd⟩ := exists_ofSheet (Sheet.records_ofText hsheet hss) hw
    exact ⟨d, s, hsheet, hd⟩

theorem lists_of_ofText (h : ofText text = .ok d) (hss : Statements (lines text.toList) ss) : d.Lists ss := by
  obtain ⟨s, hsheet, hd⟩ := bind_eq_ok.1 h
  exact lists_of_ofSheet (Sheet.records_ofText hsheet hss) hd

end Document

/-! ## Automata -/

namespace Automaton

variable {a : Automaton} {ss : List (List Char × List Char)} {text : String}

/-- By their names, the automaton has the states and transitions that the statements list. Its alphabet was
filled with the symbols that they list. -/
structure StatedBy (a : Automaton) (ss : List (List Char × List Char)) : Prop where
  named : a.Named
  initial : ∀ n, a.name? a.initial = some n ↔ ListsName ss .initial n
  states : ∀ n, a.HasState n ↔ ListsName ss .states n
  finals : ∀ n, a.HasFinal n ↔ ListsName ss .accepting n
  moves : ∀ m label n, a.HasMove m label n ↔ ListsMove ss m label n
  filled : ∃ cs, a.alphabet = .ofSymbols cs ∧ ∀ c, c ∈ cs ↔ ListsSymbol ss c

/-- The automaton of a document has what the document lists. -/
theorem statedBy_automaton {d : Document} (h : d.Lists ss) (hi : d.initial ∈ d.states) :
    d.automaton.StatedBy ss := by
  have hd := Document.describes_automaton hi
  refine ⟨hd.named, fun n => ?_, fun n => ?_, fun n => ?_, fun m label n => ?_, d.alphabet, ?_, h.alphabet⟩
  · rw [hd.initial, Option.some.injEq, eq_comm, h.initial]
  · rw [hd.states, h.states]
  · rw [hd.finals, h.accepting]
  · rw [hd.moves, h.moves]
  · exact Document.alphabet_automaton d

theorem StatedBy.mem_symbols (h : a.StatedBy ss) (c : Char) : c ∈ a.alphabet.symbols ↔ ListsSymbol ss c := by
  obtain ⟨cs, hal, hcs⟩ := h.filled
  rw [hal, Alphabet.mem_symbols_ofSymbols, hcs]

/-- A text with comments, a keyword as a name and a symbol that would open a comment. -/
def annotated : String :=
  "# a pair of states\nstates: p \\x73tates # both\nalphabet: a \\x23\ninitial: p\n\\x73tates: \\x23 p, eps p\np:\n"

/-- A text with symbols in an order that leaves two ranges of its alphabet overlapping. -/
def disarranged : String :=
  "states: p\nalphabet: j f a r p l n d h k b l a m\ninitial: p\naccepting: p\np: m p\n"

end Automaton

end FiniteAutomata
