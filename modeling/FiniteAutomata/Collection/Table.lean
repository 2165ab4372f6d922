/-!
# Tables

A table is a finite map kept as the list of its bindings, in strictly ascending order of keys. The
order is part of the type, so a table is determined by its look-ups (`Table.ext_get?`), whatever the
order in which it was filled.
-/
namespace FiniteAutomata

/-- A finite map, as its bindings in strictly ascending order of keys. -/
structure Table (κ ν : Type) [Ord κ] where
  entries : List (κ × ν)
  ascending : entries.Pairwise fun a b => compare a.1 b.1 = .lt

namespace Table

variable {κ ν : Type} [Ord κ]

/-! ### Bindings as a list -/

/-- The value bound to a key by a list of bindings. -/
def lookIn (k : κ) : List (κ × ν) → Option ν
  | [] => none
  | e :: es => if compare k e.1 = .eq then some e.2 else lookIn k es

/-- Binds a key in an ascending list of bindings, at its place in the order. -/
def bindIn (k : κ) (v : ν) : List (κ × ν) → List (κ × ν)
  | [] => [(k, v)]
  | e :: es =>
    match compare k e.1 with
    | .lt => (k, v) :: e :: es
    | .eq => (k, v) :: es
    | .gt => e :: bindIn k v es

theorem mem_bindIn {k : κ} {v : ν} {es : List (κ × ν)} {e : κ × ν} (h : e ∈ bindIn k v es) :
    e = (k, v) ∨ e ∈ es := by
  induction es with
  | nil => simpa [bindIn] using h
  | cons a as ih =>
    unfold bindIn at h
    split at h <;> simp at h ⊢ <;> grind

theorem ascending_bindIn [Std.TransOrd κ] [Std.LawfulEqOrd κ] (k : κ) (v : ν)
    {es : List (κ × ν)} (h : es.Pairwise fun a b => compare a.1 b.1 = .lt) :
    (bindIn k v es).Pairwise fun a b => compare a.1 b.1 = .lt := by
  induction es with
  | nil => simp [bindIn]
  | cons a as ih =>
    obtain ⟨ha, hs⟩ := List.pairwise_cons.1 h
    unfold bindIn
    split
    · rename_i hlt
      refine List.pairwise_cons.2 ⟨fun b hb => ?_, h⟩
      rcases List.mem_cons.1 hb with rfl | hb
      · exact hlt
      · exact Std.TransCmp.lt_trans hlt (ha b hb)
    · rename_i heq
      have e := Std.LawfulEqOrd.eq_of_compare heq
      exact List.pairwise_cons.2 ⟨fun b hb => e ▸ ha b hb, hs⟩
    · rename_i hgt
      refine List.pairwise_cons.2 ⟨fun b hb => ?_, ih hs⟩
      rcases mem_bindIn hb with rfl | hb
      · exact Std.OrientedCmp.gt_iff_lt.1 hgt
      · exact ha b hb

theorem lookIn_bindIn_self [Std.TransOrd κ] (k : κ) (v : ν) (es : List (κ × ν)) :
    lookIn k (bindIn k v es) = some v := by
  induction es with
  | nil => simp [bindIn, lookIn, Std.ReflOrd.compare_self]
  | cons a as ih => unfold bindIn; split <;> simp_all [lookIn, Std.ReflOrd.compare_self]

theorem lookIn_bindIn_of_ne [Std.TransOrd κ] [Std.LawfulEqOrd κ] {k l : κ} (h : l ≠ k) (v : ν)
    (es : List (κ × ν)) : lookIn l (bindIn k v es) = lookIn l es := by
  have hne : ¬ compare l k = .eq := fun e => h (Std.LawfulEqOrd.eq_of_compare e)
  induction es with
  | nil => simp [bindIn, lookIn, hne]
  | cons a as ih =>
    unfold bindIn
    split
    · simp [lookIn, hne]
    · rename_i heq
      have e := Std.LawfulEqOrd.eq_of_compare heq
      simp [lookIn, hne, ← e]
    · simp [lookIn, ih]

theorem length_bindIn_of_lookIn {k : κ} {es : List (κ × ν)} (h : lookIn k es = none) (v : ν) :
    (bindIn k v es).length = es.length + 1 := by
  induction es with
  | nil => rfl
  | cons a as ih =>
    unfold lookIn at h
    split at h
    · cases h
    · rename_i hne
      unfold bindIn
      split
      · rfl
      · rename_i heq
        exact absurd heq hne
      · rw [List.length_cons, List.length_cons, ih h]

theorem lookIn_eq_some [Std.TransOrd κ] [Std.LawfulEqOrd κ] {es : List (κ × ν)}
    (h : es.Pairwise fun a b => compare a.1 b.1 = .lt) {k : κ} {v : ν} :
    lookIn k es = some v ↔ (k, v) ∈ es := by
  induction es with
  | nil => simp [lookIn]
  | cons a as ih =>
    obtain ⟨ha, hs⟩ := List.pairwise_cons.1 h
    by_cases he : compare k a.1 = .eq
    · have e := Std.LawfulEqOrd.eq_of_compare he
      have hn : (k, v) ∉ as := fun hm => by
        have := ha _ hm
        simp [← e, Std.ReflOrd.compare_self] at this
      simp only [lookIn, he, ↓reduceIte, Option.some.injEq, List.mem_cons, hn, or_false]
      exact ⟨fun e' => Prod.ext e e'.symm, fun e' => (congrArg Prod.snd e').symm⟩
    · have hn : (k, v) ≠ a := fun e => he (by simp [← e, Std.ReflOrd.compare_self])
      simp [lookIn, he, ih hs, hn]

/-- What is appended to the list of a key is added to what all lists hold. -/
theorem perm_bindIn_append [Std.TransOrd κ] [Std.LawfulEqOrd κ] {α : Type} {es : List (κ × List α)}
    (h : es.Pairwise fun a b => compare a.1 b.1 = .lt) (k : κ) (vs : List α) :
    ((bindIn k ((lookIn k es).getD [] ++ vs) es).map Prod.snd).flatten.Perm
      ((es.map Prod.snd).flatten ++ vs) := by
  induction es with
  | nil => simp [bindIn, lookIn]
  | cons a as ih =>
    obtain ⟨ha, hs⟩ := List.pairwise_cons.1 h
    cases hc : compare k a.1 with
    | lt =>
      -- the key stands before all others, so it is not bound
      have hn : lookIn k (a :: as) = none := by
        rw [Option.eq_none_iff_forall_ne_some]
        intro v hv
        rcases List.mem_cons.1 ((lookIn_eq_some h).1 hv) with e | hm
        · simp [← e, Std.ReflOrd.compare_self] at hc
        · have hlt := Std.TransCmp.lt_trans hc (ha _ hm)
          simp [Std.ReflOrd.compare_self] at hlt
      have hb : ∀ v, bindIn k v (a :: as) = (k, v) :: a :: as := fun v => by simp [bindIn, hc]
      rw [hn, hb]
      exact List.perm_append_comm
    | eq =>
      have hb : ∀ v, bindIn k v (a :: as) = (k, v) :: as := fun v => by simp [bindIn, hc]
      rw [hb, lookIn, if_pos hc]
      simpa using List.Perm.append_left a.2 List.perm_append_comm
    | gt =>
      have hb : ∀ v, bindIn k v (a :: as) = a :: bindIn k v as := fun v => by simp [bindIn, hc]
      rw [hb, lookIn, if_neg (by simp [hc])]
      simpa using List.Perm.append_left a.2 (ih hs)

/-- Ascending lists with the same bindings are the same list. -/
theorem eq_of_mem_iff [Std.TransOrd κ] {es fs : List (κ × ν)}
    (he : es.Pairwise fun a b => compare a.1 b.1 = .lt)
    (hf : fs.Pairwise fun a b => compare a.1 b.1 = .lt) (h : ∀ e, e ∈ es ↔ e ∈ fs) : es = fs := by
  induction es generalizing fs with
  | nil =>
    cases fs with
    | nil => rfl
    | cons b bs => exact absurd ((h b).2 (by simp)) (by simp)
  | cons a as ih =>
    cases fs with
    | nil => exact absurd ((h a).1 (by simp)) (by simp)
    | cons b bs =>
      obtain ⟨ha, hs⟩ := List.pairwise_cons.1 he
      obtain ⟨hb, ht⟩ := List.pairwise_cons.1 hf
      have irrefl : ∀ x : κ × ν, compare x.1 x.1 ≠ .lt := fun x => by
        simp [Std.ReflOrd.compare_self]
      have hab : a = b := by
        rcases List.mem_cons.1 ((h a).1 (by simp)) with e | hm
        · exact e
        · rcases List.mem_cons.1 ((h b).2 (by simp)) with e | hm'
          · exact e.symm
          · exact absurd (Std.TransCmp.lt_trans (hb a hm) (ha b hm')) (irrefl b)
      subst hab
      refine congrArg _ (ih hs ht fun e => ⟨fun hm => ?_, fun hm => ?_⟩)
      · rcases List.mem_cons.1 ((h e).1 (by simp [hm])) with rfl | hm'
        · exact absurd (ha _ hm) (irrefl _)
        · exact hm'
      · rcases List.mem_cons.1 ((h e).2 (by simp [hm])) with rfl | hm'
        · exact absurd (hb _ hm) (irrefl _)
        · exact hm'

/-! ### Operations -/

/-- The table without bindings. -/
def empty : Table κ ν := ⟨[], .nil⟩

instance : EmptyCollection (Table κ ν) := ⟨empty⟩
instance : Inhabited (Table κ ν) := ⟨empty⟩

instance [BEq κ] [BEq ν] : BEq (Table κ ν) := ⟨fun s t => s.entries == t.entries⟩

/-- The value bound to a key. -/
def get? (t : Table κ ν) (k : κ) : Option ν := lookIn k t.entries

/-- Whether a key is bound. -/
def contains (t : Table κ ν) (k : κ) : Bool := (t.get? k).isSome

/-- The bound keys, ascending. -/
def keys (t : Table κ ν) : List κ := t.entries.map Prod.fst

theorem ascending_keys (t : Table κ ν) : t.keys.Pairwise fun k l => compare k l = .lt :=
  List.pairwise_map.2 t.ascending

theorem nodup_keys [Std.ReflOrd κ] (t : Table κ ν) : t.keys.Nodup := by
  refine t.ascending_keys.imp fun {k l} hlt he => ?_
  rw [he, Std.ReflOrd.compare_self] at hlt
  cases hlt

/-- The bound values, in the order of their keys. -/
def values (t : Table κ ν) : List ν := t.entries.map Prod.snd

/-- Whether the table has no binding. -/
def isEmpty (t : Table κ ν) : Bool := t.entries.isEmpty

/-- The number of bindings. -/
def size (t : Table κ ν) : Nat := t.entries.length

@[simp] theorem get?_empty (k : κ) : (∅ : Table κ ν).get? k = none := rfl

/-- Removes the binding of a key. -/
def erase (t : Table κ ν) (k : κ) : Table κ ν :=
  ⟨t.entries.filter fun e => compare k e.1 != .eq, t.ascending.filter _⟩

section Updates

variable [Std.TransOrd κ] [Std.LawfulEqOrd κ]

/-- Binds a key, replacing the value it was bound to. -/
def insert (t : Table κ ν) (k : κ) (v : ν) : Table κ ν :=
  ⟨bindIn k v t.entries, ascending_bindIn k v t.ascending⟩

/-- Rebinds a key to a function of its value, or of `d` when it has none. -/
def upsert (t : Table κ ν) (k : κ) (d : ν) (f : ν → ν) : Table κ ν :=
  t.insert k (f ((t.get? k).getD d))

/-- The table of a list of bindings, the last binding of a key being kept. -/
def ofList (es : List (κ × ν)) : Table κ ν := es.foldl (fun t e => t.insert e.1 e.2) ∅

@[simp] theorem get?_insert_self (t : Table κ ν) (k : κ) (v : ν) :
    (t.insert k v).get? k = some v := lookIn_bindIn_self k v t.entries

theorem get?_insert_of_ne (t : Table κ ν) {k l : κ} (h : l ≠ k) (v : ν) :
    (t.insert k v).get? l = t.get? l := lookIn_bindIn_of_ne h v t.entries

theorem contains_insert (t : Table κ ν) (k : κ) (v : ν) (l : κ) :
    (t.insert k v).contains l = true ↔ l = k ∨ t.contains l = true := by
  by_cases h : l = k
  · subst h
    simp [contains]
  · simp [contains, get?_insert_of_ne t h, h]

/-- A key that was not bound adds one binding. -/
theorem size_insert {t : Table κ ν} {k : κ} (h : t.get? k = none) (v : ν) :
    (t.insert k v).size = t.size + 1 := length_bindIn_of_lookIn h v

@[simp] theorem get?_upsert_self (t : Table κ ν) (k : κ) (d : ν) (f : ν → ν) :
    (t.upsert k d f).get? k = some (f ((t.get? k).getD d)) := get?_insert_self t k _

theorem get?_upsert_of_ne (t : Table κ ν) {k l : κ} (h : l ≠ k) (d : ν) (f : ν → ν) :
    (t.upsert k d f).get? l = t.get? l := get?_insert_of_ne t h _

theorem get?_eq_some {t : Table κ ν} {k : κ} {v : ν} : t.get? k = some v ↔ (k, v) ∈ t.entries :=
  lookIn_eq_some t.ascending

theorem mem_keys {t : Table κ ν} {k : κ} : k ∈ t.keys ↔ ∃ v, t.get? k = some v := by
  rw [keys, List.mem_map]
  constructor
  · rintro ⟨⟨k, v⟩, he, rfl⟩
    exact ⟨v, get?_eq_some.2 he⟩
  · rintro ⟨v, hv⟩
    exact ⟨(k, v), get?_eq_some.1 hv, rfl⟩

/-- What is appended to the list of a key is added to what all lists hold. -/
theorem perm_values_upsert_append {α : Type} (t : Table κ (List α)) (k : κ) (vs : List α) :
    (t.upsert k [] (· ++ vs)).values.flatten.Perm (t.values.flatten ++ vs) :=
  perm_bindIn_append t.ascending k vs

/-- The bindings that stand before one are those of lesser keys. -/
theorem mem_before_iff {t : Table κ ν} {es fs : List (κ × ν)} {d e : κ × ν}
    (h : t.entries = es ++ e :: fs) : d ∈ es ↔ d ∈ t.entries ∧ compare d.1 e.1 = .lt := by
  have hasc := t.ascending
  rw [h] at hasc ⊢
  obtain ⟨-, hfs, hes⟩ := List.pairwise_append.1 hasc
  constructor
  · exact fun hd => ⟨List.mem_append_left _ hd, hes d hd e List.mem_cons_self⟩
  · rintro ⟨hd, hlt⟩
    rcases List.mem_append.1 hd with hd | hd
    · exact hd
    · have hle : compare e.1 d.1 ≠ .gt := by
        rcases List.mem_cons.1 hd with rfl | hd
        · rw [Std.ReflOrd.compare_self]
          exact nofun
        · rw [(List.pairwise_cons.1 hfs).1 d hd]
          exact nofun
      exact absurd (Std.OrientedCmp.gt_of_lt hlt) hle

/-- A search that goes through the bindings ends at the least key with a result. -/
theorem findSome?_entries_eq_some {β : Type} {t : Table κ ν} {f : κ → ν → Option β} {b : β} :
    (t.entries.findSome? fun e => f e.1 e.2) = some b ↔
      ∃ k v, t.get? k = some v ∧ f k v = some b ∧
        ∀ l, compare l k = .lt → ∀ w, t.get? l = some w → f l w = none := by
  rw [List.findSome?_eq_some_iff]
  constructor
  · rintro ⟨before, ⟨k, v⟩, after, hsplit, hb, hnone⟩
    refine ⟨k, v, get?_eq_some.2 (by rw [hsplit]; simp), hb, fun l hlt w hw => ?_⟩
    exact hnone (l, w) ((mem_before_iff hsplit).2 ⟨get?_eq_some.1 hw, hlt⟩)
  · rintro ⟨k, v, hv, hb, hnone⟩
    obtain ⟨before, after, hsplit⟩ := List.append_of_mem (get?_eq_some.1 hv)
    refine ⟨before, (k, v), after, hsplit, hb, ?_⟩
    rintro ⟨l, w⟩ hm
    obtain ⟨hm, hlt⟩ := (mem_before_iff hsplit).1 hm
    exact hnone l hlt w (get?_eq_some.2 hm)

/-- A table that binds each key of a list to a function of it. -/
theorem get?_ofList_map [DecidableEq κ] (ks : List κ) (f : κ → ν) (k : κ) :
    (ofList (ks.map fun l => (l, f l))).get? k = if k ∈ ks then some (f k) else none := by
  have h : ∀ t : Table κ ν, (List.foldl (fun t e => t.insert e.1 e.2) t
      (ks.map fun l => (l, f l))).get? k = if k ∈ ks then some (f k) else t.get? k := by
    induction ks with
    | nil => intro t; simp
    | cons l ls ih =>
      intro t
      rw [List.map_cons, List.foldl_cons, ih]
      by_cases hk : k = l
      · subst hk; simp
      · simp [get?_insert_of_ne _ hk, hk]
  exact h ∅

/-- A table is determined by its look-ups. -/
theorem ext_get? {s t : Table κ ν} (h : ∀ k, s.get? k = t.get? k) : s = t := by
  have e : s.entries = t.entries := eq_of_mem_iff s.ascending t.ascending fun e => by
    rw [← get?_eq_some (k := e.1) (v := e.2), ← get?_eq_some (k := e.1) (v := e.2), h]
  cases s; cases t; cases e; rfl

theorem get?_foldl_insert {es : List (κ × ν)} (h : es.Pairwise fun a b => compare a.1 b.1 = .lt)
    (t : Table κ ν) (k : κ) :
    (es.foldl (fun t e => t.insert e.1 e.2) t).get? k = (lookIn k es).or (t.get? k) := by
  induction es generalizing t with
  | nil => rfl
  | cons e es ih =>
    obtain ⟨he, hes⟩ := List.pairwise_cons.1 h
    rw [List.foldl_cons, ih hes]
    by_cases hk : compare k e.1 = .eq
    · obtain rfl := Std.LawfulEqOrd.eq_of_compare hk
      -- the key is not bound again
      have hn : lookIn e.1 es = none := by
        rw [Option.eq_none_iff_forall_ne_some]
        intro v hv
        have := he _ ((lookIn_eq_some hes).1 hv)
        rw [Std.ReflOrd.compare_self] at this
        cases this
      simp [lookIn, hn, Std.ReflOrd.compare_self]
    · have hne : k ≠ e.1 := by
        rintro rfl
        exact hk Std.ReflOrd.compare_self
      rw [get?_insert_of_ne t hne, lookIn, if_neg hk]

/-- A table is filled again from its bindings. -/
theorem ofList_entries (t : Table κ ν) : ofList t.entries = t := by
  refine ext_get? fun k => ?_
  rw [ofList, get?_foldl_insert t.ascending, get?_empty, Option.or_none]
  rfl

end Updates

end Table

end FiniteAutomata
