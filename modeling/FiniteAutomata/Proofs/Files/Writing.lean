import FiniteAutomata.Files.Tree
import FiniteAutomata.Proofs.Except

/-!
# Writing a file

A file that is written is found with its content (`find_write`). Where it cannot be written, or the
directories that hold it cannot be made, no file is found at its path afterwards
(`find_ne_of_write_eq_error`, `find_ne_of_makeParent_eq_error`). Making directories keeps all files as they
are, whether it succeeds or not (`sameFiles_makeParent`).
-/
namespace FiniteAutomata.FileTree

variable {t u : FileTree} {l m k : Place} {cs ds : List String} {c : String} {p : Path} {e : FileError}
  {content : List UInt8}

/-! ## Following components -/

theorem follow_append (t : FileTree) (l : Place) (cs ds : List String) :
    t.follow l (cs ++ ds) = t.follow l cs >>= fun m => t.follow m ds := by
  induction cs generalizing l with
  | nil => rfl
  | cons c cs ih =>
    rw [List.cons_append, follow, follow]
    cases t.node? l with
    | none => rfl
    | some n =>
      cases n with
      | directory => exact ih _
      | file content => rfl

theorem follow_cons_eq_ok :
    t.follow l (c :: cs) = .ok m ↔ t.node? l = some .directory ∧ t.follow (l.enter c) cs = .ok m := by
  rw [follow]
  cases t.node? l with
  | none => simp
  | some n => cases n <;> simp

/-- What a component leads out of is a directory. -/
theorem isDirectory_of_follow_concat (h : t.follow l (cs ++ [c]) = .ok m) : t.isDirectory l cs = true := by
  rw [follow_append] at h
  obtain ⟨k, hk, h⟩ := bind_eq_ok.1 h
  obtain ⟨hdir, -⟩ := follow_cons_eq_ok.1 h
  simp [isDirectory, hk, hdir]

/-- Components that stay where they are can be left out. -/
theorem follow_filter_dot (h : t.follow l cs = .ok m) : t.follow l (cs.filter (· != ".")) = .ok m := by
  induction cs generalizing l with
  | nil => exact h
  | cons c cs ih =>
    obtain ⟨hdir, h⟩ := follow_cons_eq_ok.1 h
    by_cases hc : c = "."
    · subst hc
      exact ih h
    · have hfilter : (c :: cs).filter (· != ".") = c :: cs.filter (· != ".") :=
        List.filter_cons_of_pos (by simpa using hc)
      rw [hfilter]
      exact follow_cons_eq_ok.2 ⟨hdir, ih h⟩

/-- Components are followed through directories only. -/
theorem follow_put (h : t.follow l cs = .ok m) (hk : t.node? k ≠ some .directory) (n : Node) :
    (t.put k n).follow l cs = .ok m := by
  induction cs generalizing l with
  | nil => exact h
  | cons c cs ih =>
    obtain ⟨hdir, h⟩ := follow_cons_eq_ok.1 h
    have hne : l ≠ k := fun e => hk (e ▸ hdir)
    exact follow_cons_eq_ok.2 ⟨(node?_put_of_ne t hne n).trans hdir, ih h⟩

/-! ## Writing -/

theorem find_eq_file : t.find p = .ok (.file content) ↔
    ∃ l, t.locate p = .ok l ∧ t.node? l = some (.file content) ∧ p.endsInSlash = false := by
  unfold find
  constructor
  · intro h
    obtain ⟨l, hl, h⟩ := bind_eq_ok.1 h
    refine ⟨l, hl, ?_⟩
    split at h
    · cases h
    · cases h
    · rename_i c hn
      split at h
      · cases h
      · rename_i hs
        cases h
        exact ⟨hn, by simpa using hs⟩
  · rintro ⟨l, hl, hn, hs⟩
    refine bind_eq_ok.2 ⟨l, hl, ?_⟩
    rw [hn, hs]
    rfl

theorem write_eq_ok : t.write p content = .ok u ↔
    ∃ l, t.locate p = .ok l ∧ t.node? l ≠ some .directory ∧ p.endsInSlash = false ∧
      u = t.put l (.file content) := by
  unfold write
  constructor
  · intro h
    obtain ⟨l, hl, h⟩ := bind_eq_ok.1 h
    split at h
    · cases h
    · rename_i hn
      rw [not_or, Bool.not_eq_true] at hn
      exact ⟨l, hl, hn.1, hn.2, (Except.ok.inj h).symm⟩
  · rintro ⟨l, hl, hn, hs, rfl⟩
    refine bind_eq_ok.2 ⟨l, hl, ?_⟩
    rw [if_neg (by simp [hn, hs])]
    rfl

/-- **What is written is found.** -/
theorem find_write (h : t.write p content = .ok u) : u.find p = .ok (.file content) := by
  obtain ⟨l, hl, hn, hs, rfl⟩ := write_eq_ok.1 h
  have hbase : ¬ l.isBase = true := by
    intro hb
    exact hn (by rw [node?, if_pos hb])
  refine find_eq_file.2 ⟨l, follow_put hl hn _, ?_, hs⟩
  rw [node?, if_neg hbase]
  exact Table.get?_insert_self _ _ _

/-- Where a file cannot be written, none is found. -/
theorem find_ne_of_write_eq_error {content' : List UInt8} (h : t.write p content = .error e) :
    t.find p ≠ .ok (.file content') := by
  intro hf
  obtain ⟨l, hl, hn, hs⟩ := find_eq_file.1 hf
  have hok : t.write p content = .ok (t.put l (.file content)) :=
    write_eq_ok.2 ⟨l, hl, by rw [hn]; exact nofun, hs, rfl⟩
  rw [hok] at h
  cases h

/-! ## Making directories -/

theorem isDirectory_concat_eq_false (h : t.isDirectory l cs = false) :
    t.isDirectory l (cs ++ [c]) = false := by
  rw [isDirectory]
  split
  · rename_i m hm
    rw [isDirectory_of_follow_concat hm] at h
    cases h
  · rfl

theorem eq_false_of_ite_eq_error {b : Bool} {e' : FileError}
    (h : (if b = true then .ok () else .error e') = (.error e : Except FileError Unit)) : b = false := by
  cases b with
  | false => rfl
  | true => cases h

/-- Where making a directory fails, there is none afterwards. -/
theorem isDirectory_of_makeDirectoriesUp_eq_error (h : t.makeDirectoriesUp l cs = (u, .error e)) :
    u.isDirectory l cs.reverse = false := by
  induction cs generalizing t u e with
  | nil => cases h
  | cons c cs ih =>
    rw [List.reverse_cons]
    unfold makeDirectoriesUp at h
    simp only [List.reverse_cons] at h
    split at h
    · cases h
    · -- the directory that holds it is made first
      split at h
      · rename_i hup
        cases h
        exact isDirectory_concat_eq_false (ih hup)
      · split at h
        · cases h
        · obtain ⟨rfl, hite⟩ := Prod.mk.inj h
          exact eq_false_of_ite_eq_error hite
    · obtain ⟨rfl, hite⟩ := Prod.mk.inj h
      exact eq_false_of_ite_eq_error hite

/-- Where the directory that holds a file cannot be made, no file is found. -/
theorem find_ne_of_makeParent_eq_error (h : t.makeParent p = (u, .error e)) :
    u.find p ≠ .ok (.file content) := by
  intro hf
  obtain ⟨l, hl, -⟩ := find_eq_file.1 hf
  have hdir := isDirectory_of_makeDirectoriesUp_eq_error h
  rw [List.reverse_reverse] at hdir
  have hfollow : u.follow p.base (p.components.filter (· != ".")) = .ok l := follow_filter_dot hl
  rcases List.eq_nil_or_concat (p.components.filter (· != ".")) with hnil | ⟨ds, d, hds⟩
  · rw [makeParent, Path.parent, hnil] at h
    cases h
  · rw [hds, List.concat_eq_append] at hfollow
    rw [Path.parent, hds, List.concat_eq_append, List.dropLast_concat,
      isDirectory_of_follow_concat hfollow] at hdir
    cases hdir

/-! ## Files that stay -/

/-- The same files are in both trees, with the same content. -/
def SameFiles (t u : FileTree) : Prop :=
  ∀ m content, u.node? m = some (.file content) ↔ t.node? m = some (.file content)

theorem SameFiles.refl (t : FileTree) : SameFiles t t := fun _ _ => Iff.rfl

theorem SameFiles.trans {v : FileTree} (h : SameFiles t u) (h' : SameFiles u v) : SameFiles t v :=
  fun m content => (h' m content).trans (h m content)

/-- A directory is made where there was nothing. -/
theorem sameFiles_makeDirectory (h : t.makeDirectory l cs = .ok u) : SameFiles t u := by
  obtain ⟨k, -, h⟩ := bind_eq_ok.1 h
  split at h
  · cases h
  · rename_i hnone
    rw [Option.not_isSome_iff_eq_none] at hnone
    obtain rfl := Except.ok.inj h
    intro m content
    by_cases hm : m = k
    · subst hm
      have hbase : ¬ m.isBase = true := fun hb => by simp [node?, hb] at hnone
      have hput : (t.put m .directory).node? m = some .directory := by
        rw [node?, if_neg hbase]
        exact Table.get?_insert_self _ _ _
      simp [hput, hnone]
    · rw [node?_put_of_ne t hm]

theorem sameFiles_makeDirectoriesUp {r : Except FileError Unit} (h : t.makeDirectoriesUp l cs = (u, r)) :
    SameFiles t u := by
  induction cs generalizing t u r with
  | nil =>
    cases h
    exact .refl t
  | cons c cs ih =>
    unfold makeDirectoriesUp at h
    simp only at h
    split at h
    · rename_i hmake
      cases h
      exact sameFiles_makeDirectory hmake
    · -- the directory that holds it is made first
      split at h
      · rename_i hup
        cases h
        exact ih hup
      · rename_i hup
        split at h
        · rename_i hmake
          cases h
          exact (ih hup).trans (sameFiles_makeDirectory hmake)
        · obtain ⟨rfl, -⟩ := Prod.mk.inj h
          exact ih hup
    · obtain ⟨rfl, -⟩ := Prod.mk.inj h
      exact .refl _

/-- **Making the directories that hold a file changes no file.** -/
theorem sameFiles_makeParent {r : Except FileError Unit} (h : t.makeParent p = (u, r)) : SameFiles t u :=
  sameFiles_makeDirectoriesUp h

/-- A file that is written keeps its place. -/
theorem locate_of_write (h : t.write p content = .ok u) : u.locate p = t.locate p := by
  obtain ⟨l, hl, hn, -, rfl⟩ := write_eq_ok.1 h
  rw [hl]
  exact follow_put hl hn _

end FiniteAutomata.FileTree
