/-!
# Unused names

A name that must differ from the names already taken is followed by quote marks until it does. One
mark for each taken name is always enough (`unusedName_not_mem`): each mark makes the name longer
than one more of the taken names.
-/
namespace FiniteAutomata

/-- Adds at most `fuel` quote marks to a name, one at a time while it is taken. -/
def markName (taken : List String) : Nat → String → String
  | 0, name => name
  | fuel + 1, name => if name ∈ taken then markName taken fuel (name ++ "'") else name

/-- The name, followed by the least number of quote marks with which it is not taken. -/
def unusedName (taken : List String) (name : String) : String := markName taken taken.length name

theorem unusedName_of_not_mem {taken : List String} {name : String} (h : name ∉ taken) :
    unusedName taken name = name := by
  unfold unusedName
  cases taken.length with
  | zero => rfl
  | succ n => simp [markName, h]

/-! ### Enough marks -/

theorem length_append_mark (name : String) : (name ++ "'").length = name.length + 1 := by
  rw [String.length_append]; rfl

/-- The taken names that are not shorter than a name, the only ones that marking it may meet. -/
def longNames (taken : List String) (name : String) : List String :=
  taken.filter fun t => name.length ≤ t.length

theorem longNames_append_mark (taken : List String) (name : String) :
    longNames taken (name ++ "'") =
      (longNames taken name).filter fun t => (name ++ "'").length ≤ t.length := by
  rw [longNames, longNames, List.filter_filter]
  refine List.filter_congr fun t _ => ?_
  rw [Bool.eq_iff_iff]
  simp only [decide_eq_true_eq, Bool.and_eq_true, length_append_mark]
  omega

theorem markName_not_mem {taken : List String} {fuel : Nat} {name : String}
    (h : (longNames taken name).length ≤ fuel) : markName taken fuel name ∉ taken := by
  induction fuel generalizing name with
  | zero =>
    intro hm
    have hl : name ∈ longNames taken name := List.mem_filter.2 ⟨hm, by simp⟩
    have := List.length_pos_of_mem hl
    omega
  | succ fuel ih =>
    unfold markName
    split
    · rename_i hm
      apply ih
      -- the name itself is no longer among the names that count once it is marked
      have hl : name ∈ longNames taken name := List.mem_filter.2 ⟨hm, by simp⟩
      have hlt : (longNames taken (name ++ "'")).length < (longNames taken name).length := by
        rw [longNames_append_mark]
        refine List.length_filter_lt_length_iff_exists.2 ⟨name, hl, ?_⟩
        rw [decide_eq_true_eq, length_append_mark]
        omega
      omega
    · assumption

/-- A name that is followed by as many marks as needed is not taken. -/
theorem unusedName_not_mem (taken : List String) (name : String) :
    unusedName taken name ∉ taken :=
  markName_not_mem (List.length_filter_le _ _)

end FiniteAutomata
