import FiniteAutomata.Proofs.Description.Reprinting
import FiniteAutomata.Proofs.Description.Wording
import Mathlib.Data.List.Perm.Subperm

/-!
# Texts with their lines rearranged

Main theorem `ofDescription_rearranged`: when all names of a loaded automaton are declared, its text can be
rearranged and is still loaded as that automaton. Lines may change places, blank lines may come and go, and
comments may be added (`Rearranged`). The statements of the text stay the same but for their order
(`Rearranged.exists_statements`), and each declaration is one of them.
-/
namespace FiniteAutomata

open Automaton

/-! ## Lines -/

/-- The lines of one text are put in another order, blank lines are inserted or removed, and comments are
added at the ends of lines. A carriage return at the end of a line belongs to its line break. -/
inductive Rearranged : List (List Char) → List (List Char) → Prop where
  | reorder {ls ms : List (List Char)} (h : ls.Perm ms) : Rearranged ls ms
  | insertBlank {ls ms : List (List Char)} {raw : List Char} (h : IsBlankLine raw) :
      Rearranged (ls ++ ms) (ls ++ raw :: ms)
  | removeBlank {ls ms : List (List Char)} {raw : List Char} (h : IsBlankLine raw) :
      Rearranged (ls ++ raw :: ms) (ls ++ ms)
  | addComment {ls ms : List (List Char)} (raw text : List Char) :
      Rearranged (ls ++ raw :: ms) (ls ++ (raw ++ ' ' :: '#' :: text) :: ms)
  | addReturn {ls ms : List (List Char)} (raw : List Char) :
      Rearranged (ls ++ raw :: ms) (ls ++ (raw ++ ['\r']) :: ms)
  | removeReturn {ls ms : List (List Char)} (raw : List Char) :
      Rearranged (ls ++ (raw ++ ['\r']) :: ms) (ls ++ raw :: ms)
  | trans {ls ms ns : List (List Char)} (h : Rearranged ls ms) (h' : Rearranged ms ns) : Rearranged ls ns

/-- What a line states, nothing for a line that is blank or wrong. -/
def statement? (raw : List Char) : Option (List Char × List Char) :=
  (cutUnescaped? ':' (trim (stripComment raw))).map fun p => (trim p.1, trim p.2)

variable {raw raw' tail key value : List Char} {ls ms : List (List Char)}
  {ss ts : List (List Char × List Char)}

theorem statement?_eq_some : statement? raw = some (key, value) ↔ IsStatement raw key value := by
  rw [isStatement_iff, statement?, Option.map_eq_some_iff]
  simp only [Prod.exists, Prod.mk.injEq, eq_comm (b := key), eq_comm (b := value)]

theorem statement?_of_isBlankLine (h : IsBlankLine raw) : statement? raw = none := by
  rw [statement?, isBlankLine_iff.1 h]
  rfl

/-- The statements of a text are those of its lines. -/
theorem statements_iff : Statements ls ss ↔
    (∀ raw ∈ ls, IsBlankLine raw ∨ (statement? raw).isSome = true) ∧ ls.filterMap statement? = ss := by
  constructor
  · intro h
    induction h with
    | nil => exact ⟨List.forall_mem_nil _, rfl⟩
    | blank hb _ ih =>
      refine ⟨List.forall_mem_cons.2 ⟨.inl hb, ih.1⟩, ?_⟩
      rw [List.filterMap_cons_none (statement?_of_isBlankLine hb), ih.2]
    | state hs _ ih =>
      have hs := statement?_eq_some.2 hs
      refine ⟨List.forall_mem_cons.2 ⟨.inr (by rw [hs]; rfl), ih.1⟩, ?_⟩
      rw [List.filterMap_cons_some hs, ih.2]
  · rintro ⟨hall, rfl⟩
    induction ls with
    | nil => exact .nil
    | cons raw ls ih =>
      obtain ⟨hraw, hls⟩ := List.forall_mem_cons.1 hall
      rcases hraw with hb | hs
      · rw [List.filterMap_cons_none (statement?_of_isBlankLine hb)]
        exact .blank hb (ih hls)
      · obtain ⟨⟨key, value⟩, hs⟩ := Option.isSome_iff_exists.1 hs
        rw [List.filterMap_cons_some hs]
        exact .state (statement?_eq_some.1 hs) (ih hls)

/-- A blank line adds nothing, wherever it stands. -/
theorem statements_blank_iff (h : IsBlankLine raw) :
    Statements (ls ++ raw :: ms) ss ↔ Statements (ls ++ ms) ss := by
  rw [statements_iff, statements_iff, List.forall_mem_append, List.forall_mem_append, List.forall_mem_cons,
    List.filterMap_append, List.filterMap_append, List.filterMap_cons_none (statement?_of_isBlankLine h)]
  simp [h]

/-! ## What a line ends with -/

/-- White space up to a comment does not count at the end of a line, whatever stands before it. -/
theorem trim_stripComment_append (h : ∀ start, trimEnd (stripCommentFrom start tail) = []) (raw : List Char) :
    trim (stripComment (raw ++ tail)) = trim (stripComment raw) := by
  have hend : ∀ start, trimEnd (stripCommentFrom start (raw ++ tail)) = trimEnd (stripCommentFrom start raw) := by
    induction raw with
    | nil => exact h
    | cons c raw ih =>
      intro start
      rw [List.cons_append, stripCommentFrom, stripCommentFrom]
      by_cases hc : c = '#' ∧ start = true
      · rw [if_pos hc, if_pos hc]
      · rw [if_neg hc, if_neg hc]
        exact trimEnd_cons_congr (ih (isBlank c)) c
  exact trim_congr (hend true)

theorem trim_stripComment_comment (raw text : List Char) :
    trim (stripComment (raw ++ ' ' :: '#' :: text)) = trim (stripComment raw) :=
  trim_stripComment_append (fun start => by simp [stripCommentFrom, isBlank, trimEnd]) raw

theorem trim_stripComment_return (raw : List Char) :
    trim (stripComment (raw ++ ['\r'])) = trim (stripComment raw) :=
  trim_stripComment_append (fun start => by simp [stripCommentFrom, isBlank, trimEnd]) raw

/-- A line may be replaced by one of the same content. -/
theorem Statements.replace (h : Statements (ls ++ raw :: ms) ss)
    (hc : trim (stripComment raw') = trim (stripComment raw)) : Statements (ls ++ raw' :: ms) ss := by
  have hblank : IsBlankLine raw' ↔ IsBlankLine raw := by rw [isBlankLine_iff, isBlankLine_iff, hc]
  have hstatement : statement? raw' = statement? raw := by rw [statement?, statement?, hc]
  rw [statements_iff] at h ⊢
  simp only [List.forall_mem_append, List.forall_mem_cons, List.filterMap_append, List.filterMap_cons] at h ⊢
  rwa [hblank, hstatement]

/-- **Rearranged lines make the same statements**, in an order of their own. -/
theorem Rearranged.exists_statements (h : Rearranged ls ms) (hs : Statements ls ss) :
    ∃ ts, Statements ms ts ∧ ss.Perm ts := by
  induction h generalizing ss with
  | reorder h =>
    obtain ⟨hall, rfl⟩ := statements_iff.1 hs
    exact ⟨_, statements_iff.2 ⟨fun raw hm => hall raw (h.mem_iff.2 hm), rfl⟩, h.filterMap _⟩
  | insertBlank hb => exact ⟨ss, (statements_blank_iff hb).2 hs, .refl ss⟩
  | removeBlank hb => exact ⟨ss, (statements_blank_iff hb).1 hs, .refl ss⟩
  | addComment raw text => exact ⟨ss, hs.replace (trim_stripComment_comment raw text), .refl ss⟩
  | addReturn raw => exact ⟨ss, hs.replace (trim_stripComment_return raw), .refl ss⟩
  | removeReturn raw => exact ⟨ss, hs.replace (trim_stripComment_return raw).symm, .refl ss⟩
  | trans _ _ ih ih' =>
    obtain ⟨ts, hts, hperm⟩ := ih hs
    obtain ⟨us, hus, hperm'⟩ := ih' hts
    exact ⟨us, hus, hperm.trans hperm'⟩

theorem DeclaredOnce.perm (h : DeclaredOnce ss) (hp : ss.Perm ts) : DeclaredOnce ts := by
  intro k
  rw [← (hp.map Prod.fst).count_eq]
  exact h k

/-! ## Lines with other numbers -/

namespace Line

variable {l l' : Line} {ns : List String} {r : String × List (Label × String)}

/-- The number of a line is for its errors only. -/
theorem names_congr (hv : l'.value = l.value) : l'.names = .ok ns ↔ l.names = .ok ns := by
  unfold names
  rw [hv]
  exact mapM_eq_ok_congr fun w n => by rw [nameOn_eq_ok, nameOn_eq_ok]

theorem symbols_congr {cs : List Char} (hv : l'.value = l.value) :
    (words l'.value).mapM (symbolOn l'.number) = .ok cs ↔ (words l.value).mapM (symbolOn l.number) = .ok cs := by
  rw [hv]
  exact mapM_eq_ok_congr fun w c => by rw [symbolOn_eq_ok, symbolOn_eq_ok]

theorem row_congr (hk : l'.key = l.key) (hv : l'.value = l.value) : l'.row = .ok r ↔ l.row = .ok r := by
  rw [row_eq_ok, row_eq_ok, hk, hv]
  refine and_congr_right fun _ => ?_
  by_cases hnil : l.value.isEmpty = true
  · rw [if_pos hnil, if_pos hnil]
  · rw [if_neg hnil, if_neg hnil]
    exact mapM_eq_ok_congr fun e p => by rw [entryOn_eq_ok_iff, entryOn_eq_ok_iff]

end Line

/-! ## Sheets -/

section Sheets
variable {s s' : Sheet} {k : Keyword} {l : Line} {d : Document} {rows : List (String × List (Label × String))}

theorem Sheet.Records.line?_perm (h : s.Records ss) (h' : s'.Records ts) (hp : ss.Perm ts)
    (hl : s.line? k = some l) : ∃ l', s'.line? k = some l' ∧ l'.value = l.value :=
  (h'.declared k l.value).1 (hp.mem_iff.1 ((h.declared k l.value).2 ⟨l, hl, rfl⟩))

/-- A declaration that may be missing lists the same names. -/
theorem Sheet.Records.elim_names_perm (h : s.Records ss) (h' : s'.Records ts) (hp : ss.Perm ts)
    {ns : List String} (hn : (s.line? k).elim (.ok []) Line.names = .ok ns) :
    (s'.line? k).elim (.ok []) Line.names = .ok ns := by
  cases hl : s.line? k with
  | none =>
    have hnone : s'.line? k = none := by
      rw [h'.line?_eq_none, ← (hp.map Prod.fst).count_eq]
      exact (h.line?_eq_none k).1 hl
    rwa [hnone, ← hl]
  | some l =>
    obtain ⟨l', hl', hv⟩ := h.line?_perm h' hp hl
    rw [hl, Option.elim_some] at hn
    rw [hl', Option.elim_some]
    exact (Line.names_congr hv).2 hn

theorem Sheet.Records.row_perm (h : s.Records ss) (h' : s'.Records ts) (hp : ss.Perm ts) (hl : l ∈ s.rows) :
    ∃ l' ∈ s'.rows, l'.key = l.key ∧ l'.value = l.value := by
  obtain ⟨hm, hk⟩ := (h.rows l.key l.value).2 ⟨l, hl, rfl, rfl⟩
  exact (h'.rows l.key l.value).1 ⟨hp.mem_iff.1 hm, hk⟩

/-- A row of one sheet is a row of the other. -/
theorem Sheet.Records.exists_row_perm (h : s.Records ss) (h' : s'.Records ts) (hp : ss.Perm ts)
    {r : String × List (Label × String)} (hr : ∃ l ∈ s.rows, l.row = .ok r) : ∃ l ∈ s'.rows, l.row = .ok r := by
  obtain ⟨l, hl, hr⟩ := hr
  obtain ⟨l', hl', hk, hv⟩ := h.row_perm h' hp hl
  exact ⟨l', hl', (Line.row_congr hk hv).2 hr⟩

/-- **Sheets that hold the same statements have the same document**, but for the order of its rows. -/
theorem Document.exists_ofSheet_perm (h : s.Records ss) (h' : s'.Records ts) (hp : ss.Perm ts)
    (hd : ofSheet s = .ok d) :
    ∃ rows, ofSheet s' = .ok { d with rows := rows } ∧ ∀ r, r ∈ rows ↔ r ∈ d.rows := by
  obtain ⟨l₁, l₂, l₃, h₁, h₂, h₃, ha, hs, hn, hi, hf, hr⟩ := ofSheet_eq_ok.1 hd
  obtain ⟨m₁, h₁', hv₁⟩ := h.line?_perm h' hp h₁
  obtain ⟨m₂, h₂', hv₂⟩ := h.line?_perm h' hp h₂
  obtain ⟨m₃, h₃', hv₃⟩ := h.line?_perm h' hp h₃
  obtain ⟨rows, hrows⟩ : ∃ rows, s'.rows.mapM Line.row = .ok rows := by
    refine exists_mapM_eq_ok.2 fun l hl => ?_
    obtain ⟨l', hl', hk, hv⟩ := h'.row_perm h hp.symm hl
    obtain ⟨r, hr⟩ := exists_mapM_eq_ok.1 ⟨_, hr⟩ l' hl'
    exact ⟨r, (Line.row_congr hk hv).1 hr⟩
  refine ⟨rows, ofSheet_eq_ok.2 ⟨m₁, m₂, m₃, h₁', h₂', h₃', (Line.symbols_congr hv₂).2 ha,
    (Line.names_congr hv₁).2 hs, (Line.names_congr hv₃).2 hn, hi, h.elim_names_perm h' hp hf, hrows⟩, fun r => ?_⟩
  rw [mem_of_mapM_eq_ok hrows, mem_of_mapM_eq_ok hr]
  exact ⟨h'.exists_row_perm h hp.symm, h.exists_row_perm h' hp⟩

/-- A text that is rearranged says the same, with its lines of transitions in an order of their own. -/
theorem Document.exists_ofText_rearranged {text text' : String} (hd : ofText text = .ok d)
    (h : Rearranged (lines text.toList) (lines text'.toList)) :
    ∃ rows, ofText text' = .ok { d with rows := rows } ∧ ∀ r, r ∈ rows ↔ r ∈ d.rows := by
  obtain ⟨s, hs, hd⟩ := bind_eq_ok.1 hd
  obtain ⟨ss, hss, honce⟩ := Sheet.exists_ofText.1 ⟨s, hs⟩
  obtain ⟨ts, hts, hp⟩ := h.exists_statements hss
  obtain ⟨s', hs'⟩ := Sheet.exists_ofText.2 ⟨ts, hts, honce.perm hp⟩
  obtain ⟨rows, hd', hrows⟩ :=
    exists_ofSheet_perm (Sheet.records_ofText hs hss) (Sheet.records_ofText hs' hts) hp hd
  exact ⟨rows, bind_eq_ok.2 ⟨s', hs', hd'⟩, hrows⟩

end Sheets

/-! ## Tables of names -/

namespace Document

variable {d : Document} {n : String} {rows : List (String × List (Label × String))}

/-- The automaton with its states only. -/
def declared (d : Document) : Automaton := d.states.foldl addState (.new (.ofSymbols d.alphabet) d.initial)

/-- Reading on adds names after the declared ones only. -/
theorem declared_prefix_names (d : Document) : d.declared.names <+: d.automaton.names := by
  have hrow : ∀ (b : Automaton) (r : String × List (Label × String)), b.names <+: (b.addRow r).names :=
    fun b r => List.foldlRecOn r.2 (addEntry (b.handle r.1)) (motive := fun c => b.names <+: c.names)
      (names_prefix_intern b r.1) fun c hc e _ => hc.trans (names_prefix_intern c e.2)
  have hfinals := List.foldlRecOn d.accepting addFinalName (b := d.declared)
    (motive := fun b => d.declared.names <+: b.names) (List.prefix_refl _)
    fun b hb n _ => hb.trans (names_prefix_intern b n)
  exact List.foldlRecOn d.rows addRow (motive := fun b => d.declared.names <+: b.names) hfinals
    fun b hb r _ => hb.trans (hrow b r)

theorem mem_names_declared : n ∈ d.declared.names ↔ n = d.initial ∨ n ∈ d.states := by
  have hstate : ∀ (b : Automaton) (m : String), n ∈ (b.addState m).names ↔ n ∈ b.names ∨ n = m :=
    fun _ _ => mem_names_intern
  rw [declared, mem_names_foldl hstate, new_eq, List.mem_singleton, exists_eq_right']

/-- Where all names are declared, the declarations alone number them. -/
theorem names_automaton_eq (hi : d.initial ∈ d.states)
    (hall : ∀ n ∈ d.automaton.names, d.automaton.HasState n) : d.automaton.names = d.declared.names := by
  have hd := describes_automaton hi
  have hsub : d.automaton.names ⊆ d.declared.names := fun n hn =>
    mem_names_declared.2 (.inr ((hd.states n).1 (hall n hn)))
  have hle := (List.subperm_of_subset hd.named.nodup hsub).length_le
  exact ((declared_prefix_names d).eq_of_length_le hle).symm

/-- A document that lists the same rows describes the same automata. -/
theorem Describes.congr_rows {a : Automaton} (h : d.Describes a) (hrows : ∀ r, r ∈ rows ↔ r ∈ d.rows) :
    Describes { d with rows := rows } a := by
  refine ⟨h.named, h.initial, h.states, h.finals, fun m label n => ?_⟩
  rw [h.moves, HasMove, HasMove]
  simp only [hrows]

/-- **The order of the rows is not seen in the automaton** when all names are declared. -/
theorem automaton_congr_rows (hs : ∀ n ∈ d.states, n ≠ "") (hi : d.initial ∈ d.states)
    (hall : ∀ n ∈ d.automaton.names, d.automaton.HasState n) (hrows : ∀ r, r ∈ rows ↔ r ∈ d.rows) :
    Document.automaton { d with rows := rows } = d.automaton := by
  have hd := describes_automaton hi
  have hd' : Describes { d with rows := rows } (Document.automaton { d with rows := rows }) :=
    describes_automaton hi
  obtain ⟨k, htidy, hal⟩ := loaded_automaton hs (hs _ hi)
  obtain ⟨k', htidy', hal'⟩ := loaded_automaton (d := { d with rows := rows }) hs (hs _ hi)
  have hsame := hd'.sameByName (hd.congr_rows hrows)
  have hmentions : ∀ n, Mentions { d with rows := rows } n ↔ d.Mentions n := by
    intro n
    simp only [Mentions, hrows]
  have hall' : ∀ n ∈ (Document.automaton { d with rows := rows }).names,
      (Document.automaton { d with rows := rows }).HasState n := fun n hn =>
    (hsame.states n).2 (hall n (mem_names_automaton.2 ((hmentions n).1 (mem_names_automaton.1 hn))))
  -- both tables are that of the declarations, which come before the rows
  have hnames : (Document.automaton { d with rows := rows }).names = d.automaton.names :=
    (names_automaton_eq (d := { d with rows := rows }) hi hall').trans (names_automaton_eq hi hall).symm
  exact hsame.eq hd'.named hd.named htidy'.filled htidy.filled hnames (hal'.trans hal.symm)

end Document

namespace Automaton

/-- **A text whose lines are rearranged is loaded as the same automaton**, when all names of the automaton are
declared. -/
theorem ofDescription_rearranged {text text' : String} {a : Automaton} (ha : ofDescription text = .ok a)
    (hall : ∀ n ∈ a.names, a.HasState n) (h : Rearranged (lines text.toList) (lines text'.toList)) :
    ofDescription text' = .ok a := by
  obtain ⟨d, hd, rfl⟩ := exists_document ha
  obtain ⟨hs, hi⟩ := Document.names_of_ofText hd
  obtain ⟨rows, hd', hrows⟩ := Document.exists_ofText_rearranged hd h
  exact map_eq_ok.2 ⟨_, hd', Document.automaton_congr_rows hs hi hall hrows⟩

/-- The lines of `shuffled` in another order, one of them with a comment and one of them without. -/
def reshuffled : String :=
  "initial: b\nstates: p b p # p twice\n\n  # transitions\nb: a p, b b\np:\nalphabet: b a\naccepting: p\n"

theorem ofDescription_reshuffled :
    ∃ a, ofDescription shuffled = .ok a ∧ ofDescription reshuffled = .ok a ∧ a.accepts ['b', 'a'] = true := by
  have h : ((ofDescription shuffled).toOption.map fun a =>
      (a.names, decide (0 ∈ a.states ∧ 1 ∈ a.states), a.accepts ['b', 'a'])) = some (["b", "p"], true, true) := by
    decide +kernel
  obtain ⟨a, ha, h⟩ := Option.map_eq_some_iff.1 h
  simp only [Prod.mk.injEq, decide_eq_true_eq] at h
  obtain ⟨hnames, ⟨hzero, hone⟩, hw⟩ := h
  have ha := toOption_eq_some.1 ha
  have hall : ∀ n ∈ a.names, a.HasState n := by
    rw [hnames]
    intro n hn
    rcases List.mem_cons.1 hn with rfl | hn
    · exact ⟨0, hzero, by rw [name?, hnames]; rfl⟩
    · exact ⟨1, hone, by rw [name?, hnames, List.mem_singleton.1 hn]; rfl⟩
  have hlines : lines shuffled.toList = [] ++ "# two states".toList ::
      (["b: a p, b b", "alphabet: b a", ""].map String.toList ++ "states: p b p".toList ::
        ["accepting: p", "p:", "initial: b", ""].map String.toList) := by decide +kernel
  have hcomment : IsBlankLine "  # transitions".toList := isBlankLine_iff.2 (by decide +kernel)
  refine ⟨a, ha, ofDescription_rearranged ha hall ?_, hw⟩
  rw [hlines]
  refine .trans (.removeBlank (isBlankLine_iff.2 (by decide +kernel))) ?_
  rw [List.nil_append]
  refine .trans (.addComment _ " p twice".toList) ?_
  refine .trans (.insertBlank hcomment) ?_
  exact .reorder (by decide +kernel)

end Automaton

end FiniteAutomata
