import FiniteAutomata.Proofs.Description.Document
import FiniteAutomata.Proofs.Text.Unescaped

/-!
# The statements of a text

Each line of a text is blank or states a value for a key, once its comment is removed. The statements of a text
are those of its lines in order. Main statements: a text has a sheet exactly if each of its lines is of one of
the two kinds and no declaration is repeated (`Sheet.exists_ofText`), and the sheet holds the statements of the
text (`Sheet.records_ofText`).
-/
namespace FiniteAutomata

/-! ## Lines -/

/-- A word may start after the text: it ends with white space, or is empty where one may start. -/
def WordStart (start : Bool) (cs : List Char) : Prop := (cs.getLast?.map isBlank).getD start = true

/-- The line without its comment, which the first `#` at the start of a word opens. -/
def Uncommented (raw content : List Char) : Prop :=
  content = raw ∧ Lacks (WordStart true) '#' raw ∨ ∃ r, FirstPlace (WordStart true) '#' raw content r

/-- The line is white space up to its comment. -/
def IsBlankLine (raw : List Char) : Prop :=
  ∃ content, Uncommented raw content ∧ ∀ c ∈ content, isBlank c = true

/-- The line states the value for the key: its content is cut at the first colon that is not escaped. -/
def IsStatement (raw key value : List Char) : Prop :=
  ∃ content l r, Uncommented raw content ∧ FirstPlace Clear ':' (trim content) l r ∧
    key = trim l ∧ value = trim r

variable {raw content key value : List Char} {n : Nat}

theorem wordStart_cons {start : Bool} {c : Char} {cs : List Char} :
    WordStart start (c :: cs) ↔ WordStart (isBlank c) cs := by
  cases cs with
  | nil => simp [WordStart]
  | cons d cs => simp [WordStart, List.getLast?_cons]

theorem stripCommentFrom_spec (start : Bool) (cs : List Char) :
    stripCommentFrom start cs = cs ∧ Lacks (WordStart start) '#' cs ∨
      ∃ r, FirstPlace (WordStart start) '#' cs (stripCommentFrom start cs) r := by
  induction cs generalizing start with
  | nil => exact .inl ⟨rfl, lacks_nil⟩
  | cons c cs ih =>
    rw [stripCommentFrom]
    split
    · rename_i h
      obtain ⟨rfl, rfl⟩ := h
      exact .inr ⟨cs, rfl, rfl, lacks_nil⟩
    · rename_i h
      have hstart : c = '#' → ¬ WordStart start [] := fun hc hs => h ⟨hc, hs⟩
      rcases ih (isBlank c) with ⟨he, hl⟩ | ⟨r, hr⟩
      · exact .inl ⟨congrArg _ he, hl.cons hstart fun _ => wordStart_cons.1⟩
      · exact .inr ⟨r, congrArg _ hr.eq, wordStart_cons.2 hr.here, hr.first.cons hstart fun _ => wordStart_cons.1⟩

/-- **A line loses its comment.** -/
theorem stripComment_eq_iff : stripComment raw = content ↔ Uncommented raw content := by
  have hspec := stripCommentFrom_spec true raw
  constructor
  · rintro rfl
    exact hspec
  · rintro (⟨rfl, hl⟩ | ⟨r, hr⟩)
    · rcases hspec with ⟨he, -⟩ | ⟨r', hr'⟩
      · exact he
      · exact absurd hr'.here (hl _ _ hr'.eq)
    · rcases hspec with ⟨-, hl⟩ | ⟨r', hr'⟩
      · exact absurd hr.here (hl _ _ hr.eq)
      · exact (hr'.unique hr).1

theorem isBlankLine_iff : IsBlankLine raw ↔ trim (stripComment raw) = [] := by
  rw [trim_eq_nil]
  constructor
  · rintro ⟨content, hc, hb⟩
    rwa [stripComment_eq_iff.2 hc]
  · exact fun h => ⟨_, stripComment_eq_iff.1 rfl, h⟩

theorem isStatement_iff : IsStatement raw key value ↔
    ∃ l r, cutUnescaped? ':' (trim (stripComment raw)) = some (l, r) ∧ key = trim l ∧ value = trim r := by
  constructor
  · rintro ⟨content, l, r, hc, hcut, hk, hv⟩
    rw [← stripComment_eq_iff.2 hc] at hcut
    exact ⟨l, r, (cutUnescaped?_eq_some (by decide)).2 hcut, hk, hv⟩
  · rintro ⟨l, r, hcut, hk, hv⟩
    exact ⟨_, l, r, stripComment_eq_iff.1 rfl, (cutUnescaped?_eq_some (by decide)).1 hcut, hk, hv⟩

/-- **A line is skipped exactly if it is blank.** -/
theorem Line.parse?_eq_none : Line.parse? n raw = .ok none ↔ IsBlankLine raw := by
  rw [isBlankLine_iff, Line.parse?]
  cases trim (stripComment raw) with
  | nil => simp
  | cons c cs => cases h : cutUnescaped? ':' (c :: cs) <;> simp [h]

/-- **A line is read as what it states.** -/
theorem Line.parse?_eq_some {l : Line} :
    Line.parse? n raw = .ok (some l) ↔ l.number = n ∧ IsStatement raw l.key l.value := by
  rw [isStatement_iff, Line.parse?]
  obtain ⟨m, key, value⟩ := l
  cases trim (stripComment raw) with
  | nil => simp [cutUnescaped?]
  | cons c cs =>
    cases hcut : cutUnescaped? ':' (c :: cs) with
    | none => simp [hcut]
    | some p =>
      simp only [hcut, Except.ok.injEq, Option.some.injEq, Line.mk.injEq]
      grind

/-! ## Texts -/

/-- What the lines state, in order. Each line that states nothing is blank. -/
inductive Statements : List (List Char) → List (List Char × List Char) → Prop where
  | nil : Statements [] []
  | blank {raw : List Char} {raws : List (List Char)} {ss : List (List Char × List Char)}
      (h : IsBlankLine raw) (hs : Statements raws ss) : Statements (raw :: raws) ss
  | state {raw key value : List Char} {raws : List (List Char)} {ss : List (List Char × List Char)}
      (h : IsStatement raw key value) (hs : Statements raws ss) : Statements (raw :: raws) ((key, value) :: ss)

/-- No declaration is made twice. -/
def DeclaredOnce (ss : List (List Char × List Char)) : Prop :=
  ∀ k : Keyword, (ss.map Prod.fst).count k.text.toList ≤ 1

theorem DeclaredOnce.of_append {ss ts : List (List Char × List Char)} (h : DeclaredOnce (ss ++ ts)) :
    DeclaredOnce ss := by
  intro k
  have := h k
  rw [List.map_append, List.count_append] at this
  omega

namespace Sheet

variable {s s' : Sheet} {l : Line} {ss ts : List (List Char × List Char)} {raws : List (List Char)}
  {cs : List Char}

/-- The sheet holds the statements: the value of each declaration, and the others as rows. -/
structure Records (s : Sheet) (ss : List (List Char × List Char)) : Prop where
  once : DeclaredOnce ss
  declared : ∀ (k : Keyword) (v : List Char), (k.text.toList, v) ∈ ss ↔ ∃ l, s.line? k = some l ∧ l.value = v
  rows : ∀ key v, (key, v) ∈ ss ∧ Keyword.ofText? key = none ↔ ∃ l ∈ s.rows, l.key = key ∧ l.value = v

theorem records_empty : Records {} [] := by
  refine ⟨fun k => by simp, fun k v => ?_, fun key v => by simp⟩
  cases k <;> simp [line?]

/-! ### Adding a statement -/

theorem line?_declare (s : Sheet) (l : Line) (k k' : Keyword) :
    (s.declare l k).line? k' = if k' = k then some l else s.line? k' := by
  cases k <;> cases k' <;> rfl

theorem rows_declare (s : Sheet) (l : Line) (k : Keyword) : (s.declare l k).rows = s.rows := by
  cases k <;> rfl

theorem count_concat (k : Keyword) (p : List Char × List Char) :
    ((ss ++ [p]).map Prod.fst).count k.text.toList =
      (ss.map Prod.fst).count k.text.toList + if p.1 = k.text.toList then 1 else 0 := by
  rw [List.map_append, List.count_append, List.map_singleton, List.count_singleton]
  simp

/-- A declaration that is on the sheet counts once, and one that is not does not count. -/
theorem Records.line?_eq_none (h : Records s ss) (k : Keyword) :
    s.line? k = none ↔ (ss.map Prod.fst).count k.text.toList = 0 := by
  rw [List.count_eq_zero, Option.eq_none_iff_forall_ne_some]
  constructor
  · intro hnone hm
    obtain ⟨⟨key, v⟩, hp, rfl⟩ := List.mem_map.1 hm
    obtain ⟨l, hl, -⟩ := (h.declared k v).1 hp
    exact hnone l hl
  · intro hm l hl
    exact hm (List.mem_map.2 ⟨_, (h.declared k l.value).2 ⟨l, hl, rfl⟩, rfl⟩)

theorem Records.add_declaration {k : Keyword} (h : Records s ss) (hk : l.key = k.text.toList)
    (hnew : s.line? k = none) : Records (s.declare l k) (ss ++ [(l.key, l.value)]) := by
  have hzero := (h.line?_eq_none k).1 hnew
  refine ⟨fun k' => ?_, fun k' v => ?_, fun key v => ?_⟩
  · rw [count_concat, hk]
    by_cases hk' : k = k'
    · simp [← hk', hzero]
    · simpa [Keyword.text_inj, hk'] using h.once k'
  · rw [line?_declare, List.mem_append, h.declared, List.mem_singleton, Prod.mk.injEq, hk, Keyword.text_inj]
    by_cases hk' : k' = k
    · simp [hk', hnew, eq_comm]
    · simp [hk']
  · rw [rows_declare, ← h.rows, List.mem_append, List.mem_singleton, Prod.mk.injEq, hk]
    constructor
    · rintro ⟨hm | ⟨rfl, -⟩, hn⟩
      · exact ⟨hm, hn⟩
      · simp at hn
    · exact fun ⟨hm, hn⟩ => ⟨.inl hm, hn⟩

theorem Records.add_row (h : Records s ss) (hn : Keyword.ofText? l.key = none) :
    Records { s with rows := s.rows ++ [l] } (ss ++ [(l.key, l.value)]) := by
  have hne : ∀ k : Keyword, l.key ≠ k.text.toList := by
    intro k hk
    simp [hk] at hn
  refine ⟨fun k => ?_, fun k v => ?_, fun key v => ?_⟩
  · rw [count_concat, if_neg (hne k)]
    exact h.once k
  · have hline : Sheet.line? { s with rows := s.rows ++ [l] } k = s.line? k := by cases k <;> rfl
    rw [hline, ← h.declared, List.mem_append, List.mem_singleton, Prod.mk.injEq]
    simp [(hne k).symm]
  · have hrows := h.rows key v
    simp only [List.mem_append, List.mem_singleton, Prod.mk.injEq, or_and_right, exists_or, ← hrows,
      exists_eq_left]
    refine or_congr_right ?_
    grind

/-- **A line can be added unless it repeats a declaration, and is then one more statement.** -/
theorem Records.add (h : Records s ss) (l : Line) :
    ((∃ s', s.add l = .ok s') ↔ DeclaredOnce (ss ++ [(l.key, l.value)])) ∧
      ∀ s', s.add l = .ok s' → Records s' (ss ++ [(l.key, l.value)]) := by
  cases hk : Keyword.ofText? l.key with
  | none =>
    have hadd : s.add l = .ok { s with rows := s.rows ++ [l] } := by rw [Sheet.add, hk]
    have hr := h.add_row hk
    simp [hadd, hr, hr.once]
  | some k =>
    have hkey := Keyword.ofText?_eq_some hk
    cases hl : s.line? k with
    | none =>
      have hadd : s.add l = .ok (s.declare l k) := by simp [Sheet.add, hk, hl]
      have hr := h.add_declaration hkey hl
      simp [hadd, hr, hr.once]
    | some l' =>
      have hadd : s.add l = .error (.duplicate l.number k) := by simp [Sheet.add, hk, hl]
      -- the declaration counts twice
      have htwice : ¬ DeclaredOnce (ss ++ [(l.key, l.value)]) := by
        intro ho
        have hone := ho k
        have hzero := (not_congr (h.line?_eq_none k)).1 (by simp [hl])
        rw [count_concat, if_pos hkey] at hone
        omega
      simp [hadd, htwice]

/-! ### Adding the lines of a text -/

theorem addText_of_isBlankLine (hb : IsBlankLine raw) : s.addText (raw, n) = .ok s := by
  rw [addText, Line.parse?_eq_none.2 hb]
  rfl

theorem addText_of_isStatement (hs : IsStatement raw key value) :
    s.addText (raw, n) = s.add ⟨n, key, value⟩ :=
  addText_of_parse? (Line.parse?_eq_some.2 ⟨rfl, hs⟩)

/-- Each line that was added is blank or a statement. -/
theorem exists_statements_of_foldlM (h : (raws.zipIdx n).foldlM addText s = .ok s') :
    ∃ ts, Statements raws ts := by
  induction raws generalizing s n with
  | nil => exact ⟨[], .nil⟩
  | cons raw raws ih =>
    rw [List.zipIdx_cons, List.foldlM_cons] at h
    obtain ⟨s₁, hadd, h⟩ := bind_eq_ok.1 h
    obtain ⟨o, hp, -⟩ := bind_eq_ok.1 hadd
    obtain ⟨ts, ht⟩ := ih h
    cases o with
    | none => exact ⟨ts, .blank (Line.parse?_eq_none.1 hp) ht⟩
    | some l => exact ⟨_, .state (Line.parse?_eq_some.1 hp).2 ht⟩

theorem Records.foldlM_addText (h : Records s ss) (ht : Statements raws ts)
    (h' : (raws.zipIdx n).foldlM addText s = .ok s') : Records s' (ss ++ ts) := by
  induction ht generalizing s ss n with
  | nil =>
    obtain rfl := Except.ok.inj h'
    rwa [List.append_nil]
  | blank hb _ ih =>
    rw [List.zipIdx_cons, List.foldlM_cons, addText_of_isBlankLine hb] at h'
    exact ih h h'
  | state hs _ ih =>
    rw [List.zipIdx_cons, List.foldlM_cons, addText_of_isStatement hs] at h'
    obtain ⟨s₁, hadd, h'⟩ := bind_eq_ok.1 h'
    have := ih ((h.add _).2 s₁ hadd) h'
    rwa [List.append_assoc, List.singleton_append] at this

theorem Records.exists_foldlM_addText (h : Records s ss) (ht : Statements raws ts)
    (ho : DeclaredOnce (ss ++ ts)) : ∃ s', (raws.zipIdx n).foldlM addText s = .ok s' := by
  induction ht generalizing s ss n with
  | nil => exact ⟨s, rfl⟩
  | blank hb _ ih =>
    rw [List.zipIdx_cons, List.foldlM_cons, addText_of_isBlankLine hb]
    exact ih h ho
  | state hs _ ih =>
    rw [List.append_cons] at ho
    obtain ⟨s₁, hadd⟩ := (h.add ⟨n, _, _⟩).1.2 ho.of_append
    obtain ⟨s', hs'⟩ := ih (n := n + 1) ((h.add _).2 s₁ hadd) ho
    refine ⟨s', ?_⟩
    rw [List.zipIdx_cons, List.foldlM_cons, addText_of_isStatement hs, hadd]
    exact hs'

/-- **The sheet of a text holds the statements of the text.** -/
theorem records_ofText (h : ofText cs = .ok s) (hs : Statements (lines cs) ss) : s.Records ss :=
  records_empty.foldlM_addText hs h

/-- **A text has a sheet** exactly if each of its lines is blank or a statement, and no declaration is repeated. -/
theorem exists_ofText : (∃ s, ofText cs = .ok s) ↔ ∃ ss, Statements (lines cs) ss ∧ DeclaredOnce ss := by
  constructor
  · rintro ⟨s, h⟩
    obtain ⟨ss, hs⟩ := exists_statements_of_foldlM h
    exact ⟨ss, hs, (records_ofText h hs).once⟩
  · rintro ⟨ss, hs, ho⟩
    exact records_empty.exists_foldlM_addText hs ho

end Sheet

end FiniteAutomata
