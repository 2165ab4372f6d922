/-!
# Search trees as rows of levels

A search tree whose nodes hold several items and whose leaves are equally deep is told by the row
of the levels of its items: an item of a leaf has level 0, one of a node above nodes of level `n`
has level `n + 1`. The items of level `n` between two neighbouring items of higher levels are one
node, those of the greatest level are the root. So moving an item up or down by one level is all it
takes to split a node, to join two, or to pass an item from one to its neighbour.

A row is seen from a gap between two items, where an item is put in or taken out. Main statements:
putting an item in makes the row before the gap longer by one, taking one out shorter by one, and
the row after the gap keeps its length (`TreeGap.length_before_insert`,
`TreeGap.length_before_remove`).
-/
namespace FiniteAutomata

/-- A gap in a row of items: their levels on its two sides, the nearest first. -/
structure TreeGap where
  before : List Nat
  after : List Nat
  deriving DecidableEq, Repr

namespace TreeGap

/-- The number of items that a node of a level may have. -/
def maxItems (level : Nat) : Nat := if level = 0 then 8 else 7

/-- The number of items that every node but the root has. -/
def minItems : Nat := 3

/-! ### One side of a gap -/

/-- The number of items on a side that belong to the node of a level at the gap. -/
def itemsOn (n : Nat) (side : List Nat) : Nat := (side.takeWhile (· ≤ n)).count n

/-- Moves the item of level `n` on a side after the nearest `k` of that level to level `m`. -/
def move (n m : Nat) : Nat → List Nat → List Nat
  | _, [] => []
  | k, l :: ls =>
    if l = n then
      match k with
      | 0 => m :: ls
      | k + 1 => l :: move n m k ls
    else l :: move n m k ls

/-- Whether the node of a level at the gap has a neighbour on a side, below the same node. -/
def hasNeighbour (n : Nat) (side : List Nat) : Bool :=
  (side.dropWhile (· ≤ n)).head? == some (n + 1)

/--
Passes an item to the node of a level at the gap from its neighbour on a side, if that one can spare
it: the nearest item of the neighbour takes the place of the item that divides the two nodes.
-/
def borrow? (n : Nat) (side : List Nat) : Option (List Nat) :=
  match side.dropWhile (· ≤ n) with
  | [] => none
  | divider :: far =>
    if divider = n + 1 ∧ minItems < itemsOn n far then
      some (side.takeWhile (· ≤ n) ++ n :: move n (n + 1) 0 far)
    else none

/-- Joins the node of a level at the gap and its neighbour on a side with the item between them. -/
def join (n : Nat) (side : List Nat) : List Nat := move (n + 1) n 0 side

theorem length_move (n m k : Nat) (side : List Nat) : (move n m k side).length = side.length := by
  induction side generalizing k with
  | nil => rfl
  | cons l ls ih =>
    unfold move
    split
    · cases k <;> simp [ih]
    · simp [ih]

theorem length_join (n : Nat) (side : List Nat) : (join n side).length = side.length :=
  length_move _ _ _ _

theorem length_borrow? {n : Nat} {side side' : List Nat} (h : borrow? n side = some side') :
    side'.length = side.length := by
  have e := congrArg List.length (List.takeWhile_append_dropWhile (p := (· ≤ n)) (l := side))
  unfold borrow? at h
  split at h
  · cases h
  · rename_i divider far hd
    split at h
    · cases h
      rw [hd] at e
      simpa [length_move] using e
    · cases h

/-! ### Both sides -/

/-- The number of items of the row. -/
def size (g : TreeGap) : Nat := g.before.length + g.after.length

/-- The whole row. -/
def toList (g : TreeGap) : List Nat := g.before.reverse ++ g.after

/-- The gap in a row after its first `k` items. -/
def ofList (row : List Nat) (k : Nat) : TreeGap := ⟨(row.take k).reverse, row.drop k⟩

/-- The number of items of the node of a level at the gap. -/
def items (g : TreeGap) (n : Nat) : Nat := itemsOn n g.before + itemsOn n g.after

/-- Moves the item in the middle of the node of a level at the gap one level up. -/
def raiseMiddle (g : TreeGap) (n : Nat) : TreeGap :=
  let middle := (g.items n - 1) / 2
  let left := itemsOn n g.before
  if middle < left then ⟨move n (n + 1) (left - 1 - middle) g.before, g.after⟩
  else ⟨g.before, move n (n + 1) (middle - left) g.after⟩

/--
Splits the node of a level at the gap if it has too many items, and then the nodes above it. The
first argument bounds the number of levels.
-/
def splitUp : Nat → Nat → TreeGap → TreeGap
  | 0, _, g => g
  | bound + 1, n, g =>
    if g.items n ≤ maxItems n then g else splitUp bound (n + 1) (g.raiseMiddle n)

/--
Fills the node of a level at the gap if it has too few items: with an item of the node after it, or
of the one before it, or else by joining it to the one before it or the one after it, which may
leave too few items in the node above. The root may have few items. The first argument bounds the
number of levels.
-/
def fillUp : Nat → Nat → TreeGap → TreeGap
  | 0, _, g => g
  | bound + 1, n, g =>
    if minItems ≤ g.items n then g
    else
      match borrow? n g.after, borrow? n g.before with
      | some after, _ => ⟨g.before, after⟩
      | none, some before => ⟨before, g.after⟩
      | none, none =>
        if hasNeighbour n g.before then fillUp bound (n + 1) ⟨join n g.before, g.after⟩
        else if hasNeighbour n g.after then fillUp bound (n + 1) ⟨g.before, join n g.after⟩
        else g

/-- Puts an item into the leaf at the gap, before the gap. -/
def insert (g : TreeGap) : TreeGap := splitUp (g.size + 1) 0 ⟨0 :: g.before, g.after⟩

/--
Takes out the item before the gap. The place of one that is not in a leaf is taken by the item
before it, which is in a leaf.
-/
def remove (g : TreeGap) : TreeGap :=
  match g.before with
  | [] => g
  | 0 :: before => fillUp g.size 0 ⟨before, g.after⟩
  | [_] => ⟨[], g.after⟩
  | level :: _ :: before =>
    let filled := fillUp g.size 0 ⟨before, level :: g.after⟩
    ⟨filled.after.take 1 ++ filled.before, filled.after.drop 1⟩

/-- Takes out a number of items before the gap, one after the other. -/
def removeMany : Nat → TreeGap → TreeGap
  | 0, g => g
  | k + 1, g => removeMany k g.remove

theorem length_raiseMiddle (g : TreeGap) (n : Nat) :
    (g.raiseMiddle n).before.length = g.before.length ∧
      (g.raiseMiddle n).after.length = g.after.length := by
  unfold raiseMiddle
  simp only
  split <;> simp [length_move]

theorem length_splitUp (bound n : Nat) (g : TreeGap) :
    (splitUp bound n g).before.length = g.before.length ∧
      (splitUp bound n g).after.length = g.after.length := by
  induction bound generalizing n g with
  | zero => exact ⟨rfl, rfl⟩
  | succ bound ih =>
    unfold splitUp
    split
    · exact ⟨rfl, rfl⟩
    · obtain ⟨hb, ha⟩ := ih (n + 1) (g.raiseMiddle n)
      exact ⟨hb.trans (g.length_raiseMiddle n).1, ha.trans (g.length_raiseMiddle n).2⟩

theorem length_fillUp (bound n : Nat) (g : TreeGap) :
    (fillUp bound n g).before.length = g.before.length ∧
      (fillUp bound n g).after.length = g.after.length := by
  induction bound generalizing n g with
  | zero => exact ⟨rfl, rfl⟩
  | succ bound ih =>
    unfold fillUp
    split
    · exact ⟨rfl, rfl⟩
    · split
      · rename_i h
        exact ⟨rfl, length_borrow? h⟩
      · rename_i h
        exact ⟨length_borrow? h, rfl⟩
      · split
        · simpa [length_join] using ih (n + 1) ⟨join n g.before, g.after⟩
        · split
          · simpa [length_join] using ih (n + 1) ⟨g.before, join n g.after⟩
          · exact ⟨rfl, rfl⟩

/-- An item that is put in comes before the gap. -/
theorem length_before_insert (g : TreeGap) :
    g.insert.before.length = g.before.length + 1 ∧ g.insert.after.length = g.after.length :=
  length_splitUp _ _ _

/-- The item that is taken out came before the gap. -/
theorem length_before_remove (g : TreeGap) :
    g.remove.before.length = g.before.length - 1 ∧ g.remove.after.length = g.after.length := by
  unfold remove
  split
  · rename_i h
    simp [h]
  · rename_i before h
    simpa [h] using length_fillUp g.size 0 ⟨before, g.after⟩
  · rename_i h
    simp [h]
  · rename_i level lower before _ h
    obtain ⟨hb, ha⟩ := length_fillUp g.size 0 ⟨before, level :: g.after⟩
    simp only [List.length_cons] at hb ha
    simp only [List.length_append, List.length_take, List.length_drop, h, List.length_cons, hb, ha]
    omega

theorem length_before_removeMany (k : Nat) (g : TreeGap) :
    (removeMany k g).before.length = g.before.length - k ∧
      (removeMany k g).after.length = g.after.length := by
  induction k generalizing g with
  | zero => exact ⟨rfl, rfl⟩
  | succ k ih =>
    obtain ⟨hb, ha⟩ := ih g.remove
    obtain ⟨hb', ha'⟩ := g.length_before_remove
    exact ⟨by rw [removeMany, hb, hb']; omega, by rw [removeMany, ha, ha']⟩

end TreeGap

end FiniteAutomata
