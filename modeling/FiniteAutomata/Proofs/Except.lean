/-!
# Computations that may fail

A computation in steps succeeds when each of its steps does.
-/
namespace FiniteAutomata

variable {α β γ ε : Type}

/-- Two steps succeed when the first does and then the second. -/
theorem bind_eq_ok {x : Except ε α} {f : α → Except ε β} {b : β} :
    (x >>= f) = .ok b ↔ ∃ a, x = .ok a ∧ f a = .ok b := by
  cases x with
  | error e =>
    refine iff_of_false nofun ?_
    rintro ⟨a, h, -⟩
    cases h
  | ok a =>
    refine ⟨fun h => ⟨a, rfl, h⟩, ?_⟩
    rintro ⟨c, h, hc⟩
    obtain rfl := Except.ok.inj h
    exact hc

theorem map_eq_ok {x : Except ε α} {f : α → β} {b : β} :
    f <$> x = .ok b ↔ ∃ a, x = .ok a ∧ f a = b := by
  cases x with
  | error e => exact iff_of_false nofun fun ⟨a, h, _⟩ => nomatch h
  | ok a => exact ⟨fun h => ⟨a, rfl, Except.ok.inj h⟩, fun ⟨c, h, hc⟩ => by rw [h, ← hc]; rfl⟩

theorem map_eq_error {x : Except ε α} {f : α → β} {e : ε} : f <$> x = .error e ↔ x = .error e := by
  cases x with
  | error e' => exact ⟨fun h => congrArg _ (Except.error.inj h), fun h => congrArg _ (Except.error.inj h)⟩
  | ok a => exact iff_of_false nofun nofun

theorem toBool_eq_true {x : Except ε α} : x.toBool = true ↔ ∃ a, x = .ok a := by
  cases x with
  | error e => exact iff_of_false nofun nofun
  | ok a => exact iff_of_true rfl ⟨a, rfl⟩

theorem toOption_eq_some {x : Except ε α} {a : α} : x.toOption = some a ↔ x = .ok a := by
  cases x with
  | error e => exact iff_of_false nofun nofun
  | ok b => exact ⟨fun h => congrArg _ (Option.some.inj h), fun h => congrArg _ (Except.ok.inj h)⟩

theorem mapM_map_eq_ok {f : β → Except ε γ} {g : α → β} {k : α → γ} {xs : List α}
    (h : ∀ x ∈ xs, f (g x) = .ok (k x)) : (xs.map g).mapM f = .ok (xs.map k) := by
  induction xs with
  | nil => rfl
  | cons x xs ih =>
    rw [List.map_cons, List.mapM_cons, h x (by simp), ih fun y hy => h y (List.mem_cons_of_mem x hy)]
    rfl

theorem mapM_cons_eq_ok {f : α → Except ε β} {x : α} {xs : List α} {zs : List β} :
    (x :: xs).mapM f = .ok zs ↔ ∃ y ys, f x = .ok y ∧ xs.mapM f = .ok ys ∧ zs = y :: ys := by
  rw [List.mapM_cons]
  constructor
  · intro h
    obtain ⟨y, hy, h⟩ := bind_eq_ok.1 h
    obtain ⟨ys, hys, h⟩ := bind_eq_ok.1 h
    exact ⟨y, ys, hy, hys, (Except.ok.inj h).symm⟩
  · rintro ⟨y, ys, hy, hys, rfl⟩
    rw [hy, hys]
    rfl

/-- All members of a list have results exactly if each of them has one. -/
theorem exists_mapM_eq_ok {f : α → Except ε β} {xs : List α} :
    (∃ ys, xs.mapM f = .ok ys) ↔ ∀ x ∈ xs, ∃ y, f x = .ok y := by
  induction xs with
  | nil => exact iff_of_true ⟨[], rfl⟩ nofun
  | cons x xs ih =>
    rw [List.forall_mem_cons, ← ih]
    constructor
    · rintro ⟨zs, h⟩
      obtain ⟨y, ys, hy, hys, -⟩ := mapM_cons_eq_ok.1 h
      exact ⟨⟨y, hy⟩, ys, hys⟩
    · rintro ⟨⟨y, hy⟩, ys, hys⟩
      exact ⟨_, mapM_cons_eq_ok.2 ⟨y, ys, hy, hys, rfl⟩⟩

/-- The results are those of the members of the list. -/
theorem mem_of_mapM_eq_ok {f : α → Except ε β} {xs : List α} {ys : List β} (h : xs.mapM f = .ok ys) {y : β} :
    y ∈ ys ↔ ∃ x ∈ xs, f x = .ok y := by
  induction xs generalizing ys with
  | nil =>
    obtain rfl : [] = ys := Except.ok.inj h
    simp
  | cons x xs ih =>
    obtain ⟨z, zs, hz, hzs, rfl⟩ := mapM_cons_eq_ok.1 h
    simp [ih hzs, hz, eq_comm]

/-- Functions that give the same results on a list give the same list of results. -/
theorem mapM_eq_ok_congr {f g : α → Except ε β} {xs : List α} {ys : List β}
    (h : ∀ x y, f x = .ok y ↔ g x = .ok y) : xs.mapM f = .ok ys ↔ xs.mapM g = .ok ys := by
  induction xs generalizing ys with
  | nil => exact Iff.rfl
  | cons x xs ih => simp only [mapM_cons_eq_ok, h, ih]

/-- What holds at the start and is kept by each step holds when all steps have succeeded. -/
theorem foldlM_induction {f : β → α → Except ε β} {xs : List α} {motive : List α → β → Prop} {b c : β}
    (h : xs.foldlM f b = .ok c) (hb : motive [] b)
    (hstep : ∀ done x b b', x ∈ xs → motive done b → f b x = .ok b' → motive (done ++ [x]) b') :
    motive xs c := by
  -- the steps so far are carried along in front of those that are left
  suffices ∀ ys done, ys ⊆ xs → ∀ b, motive done b → ys.foldlM f b = .ok c → motive (done ++ ys) c from
    this xs [] (List.Subset.refl xs) b hb h
  intro ys
  induction ys with
  | nil =>
    intro done _ b hb h
    obtain rfl : b = c := Except.ok.inj h
    rwa [List.append_nil]
  | cons y ys ih =>
    intro done hsub b hb h
    rw [List.foldlM_cons] at h
    obtain ⟨b', hf, h⟩ := bind_eq_ok.1 h
    obtain ⟨hy, hys⟩ := List.cons_subset.1 hsub
    have := ih (done ++ [y]) hys b' (hstep done y b b' hy hb hf) h
    rwa [List.append_assoc, List.singleton_append] at this

/-- Steps that each succeed, as long as something holds that they keep, all succeed. -/
theorem foldlM_eq_ok {f : β → α → Except ε β} {xs : List α} {motive : β → Prop} {b : β} (hb : motive b)
    (hstep : ∀ b x, x ∈ xs → motive b → ∃ b', f b x = .ok b' ∧ motive b') :
    ∃ c, xs.foldlM f b = .ok c ∧ motive c := by
  induction xs generalizing b with
  | nil => exact ⟨b, rfl, hb⟩
  | cons x xs ih =>
    obtain ⟨b', hf, hb'⟩ := hstep b x (by simp) hb
    obtain ⟨c, hc, hmotive⟩ := ih hb' fun b y hy => hstep b y (by simp [hy])
    exact ⟨c, by rw [List.foldlM_cons, hf]; exact hc, hmotive⟩

/-- Steps fail with the error of the first one that fails. -/
theorem exists_of_foldlM_eq_error {f : β → α → Except ε β} {xs : List α} {b : β} {e : ε}
    (h : xs.foldlM f b = .error e) :
    ∃ ys x zs c, xs = ys ++ x :: zs ∧ ys.foldlM f b = .ok c ∧ f c x = .error e := by
  induction xs generalizing b with
  | nil => cases h
  | cons x xs ih =>
    rw [List.foldlM_cons] at h
    cases hf : f b x with
    | error e' =>
      rw [hf] at h
      obtain rfl : e' = e := Except.error.inj h
      exact ⟨[], x, xs, b, rfl, rfl, hf⟩
    | ok b' =>
      rw [hf] at h
      obtain ⟨ys, y, zs, c, rfl, hys, hy⟩ := ih h
      exact ⟨x :: ys, y, zs, c, rfl, by rw [List.foldlM_cons, hf]; exact hys, hy⟩

end FiniteAutomata
