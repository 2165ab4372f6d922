import Mathlib.Data.List.Induction
import FiniteAutomata.Proofs.Alphabet.Flat
import FiniteAutomata.Proofs.Alphabet.Rereading
import FiniteAutomata.Proofs.Automaton.Equality

/-!
# Filling an alphabet

An alphabet is filled with symbols and with ranges of symbols, in any order. Main theorem `members_filled`: it
always lists exactly what was put in. Where no ranges overlap, the listing is in ascending order and a search
finds all of it; where the ranges are apart, what was put in determines the alphabet as well. The ranges are
apart as long as there are never more than eight of them (`FitsNode.apart`), and when insertions come in
ascending order (`apart_of_pairwise_first`). Otherwise they may overlap, and then a search may miss a symbol.
-/
namespace FiniteAutomata

/-! ## The order of symbols -/

theorem symbolRank_le_iff {c d : Char} : symbolRank c ≤ symbolRank d ↔ c ≤ d := by
  have hc : c.toNat.isValidChar := c.valid
  have hd : d.toNat.isValidChar := d.valid
  have hle : c ≤ d ↔ c.toNat ≤ d.toNat := Iff.rfl
  rw [hle]
  unfold symbolRank
  rcases hc with hc | hc <;> rcases hd with hd | hd <;> grind

theorem symbolRank_lt_iff {c d : Char} : symbolRank c < symbolRank d ↔ c < d := by
  rw [← Nat.not_le, symbolRank_le_iff, Char.not_le]

theorem SymbolRange.contains_between {first last c : Char} :
    (between first last).contains c = true ↔ first ≤ c ∧ c ≤ last := by
  rw [← symbolRank_le_iff, ← symbolRank_le_iff]
  simp only [contains, start_between, stop_between, Bool.and_eq_true, decide_eq_true_eq]
  omega

/-! ## Insertions -/

/-- What is put into an alphabet: a symbol, or the symbols from one to another. -/
inductive Insertion where
  | symbol (c : Char)
  | range (first last : Char)
  deriving DecidableEq, Repr

namespace Insertion

/-- The symbol, or the first one of the range. -/
def first : Insertion → Char
  | .symbol c => c
  | .range first _ => first

/-- The symbol, or the last one of the range. -/
def last : Insertion → Char
  | .symbol c => c
  | .range _ last => last

/-- The insertion puts the symbol in. -/
def Puts (i : Insertion) (c : Char) : Prop := i.first ≤ c ∧ c ≤ i.last

instance (i : Insertion) (c : Char) : Decidable (i.Puts c) :=
  inferInstanceAs (Decidable (i.first ≤ c ∧ c ≤ i.last))

theorem puts_symbol {c d : Char} : (symbol c).Puts d ↔ d = c :=
  ⟨fun ⟨hle, hge⟩ => Char.le_antisymm hge hle, fun h => h ▸ ⟨Char.le_refl d, Char.le_refl d⟩⟩

end Insertion

namespace Alphabet

/-- The alphabet after an insertion. -/
def put (a : Alphabet) : Insertion → Alphabet
  | .symbol c => a.insert c
  | .range first last => a.insertRange (.between first last)

/-- The alphabet after some insertions, the first one first. -/
def filled (is : List Insertion) : Alphabet := is.foldl put ∅

/-- There are never more ranges than a single node holds. -/
def FitsNode (is : List Insertion) : Prop :=
  ∀ k ≤ is.length, (filled (is.take k)).ranges.length ≤ TreeGap.maxItems 0

instance (is : List Insertion) : Decidable (FitsNode is) :=
  inferInstanceAs (Decidable (∀ k ≤ is.length, (filled (is.take k)).ranges.length ≤ TreeGap.maxItems 0))

variable {a : Alphabet} {is : List Insertion} {c : Char}

theorem put_eq (a : Alphabet) (i : Insertion) : a.put i = a.insertRange (.between i.first i.last) := by
  cases i <;> rfl

theorem filled_concat (is : List Insertion) (i : Insertion) : filled (is ++ [i]) = (filled is).put i :=
  List.foldl_append

theorem filled_eq_ofRanges (is : List Insertion) :
    filled is = ofRanges (is.map fun i => .between i.first i.last) := by
  have hput : put = fun a i => a.insertRange (.between i.first i.last) := funext fun a => funext (put_eq a)
  rw [filled, ofRanges, List.foldl_map, hput]

theorem ofSymbols_eq_filled (cs : List Char) : ofSymbols cs = filled (cs.map .symbol) := by
  rw [filled, List.foldl_map]
  rfl

theorem ofRanges_eq_filled (rs : List (Char × Char)) :
    ofRanges (rs.map fun r => .between r.1 r.2) = filled (rs.map fun r => .range r.1 r.2) := by
  rw [filled_eq_ofRanges, List.map_map]
  rfl

/-- **An alphabet lists what was put in.** -/
theorem mem_symbols_filled : c ∈ (filled is).symbols ↔ ∃ i ∈ is, i.Puts c := by
  rw [filled_eq_ofRanges, mem_symbols_ofRanges, List.any_map, List.any_eq_true]
  simp only [Function.comp_apply, SymbolRange.contains_between, Insertion.Puts]

/-! ## When ranges are kept apart -/

/-- Insertions that a single node has room for keep the ranges apart. -/
theorem FitsNode.apart (h : FitsNode is) : (filled is).Apart := by
  suffices (filled is).Flat ∧ (filled is).Apart from this.2
  induction is using List.reverseRecOn with
  | nil => exact ⟨nofun, .nil⟩
  | append_singleton is i ih =>
    have hroom := h (is ++ [i]).length (Nat.le_refl _)
    rw [List.take_length, filled_concat, put_eq] at hroom
    have hfits : FitsNode is := by
      intro k hk
      have := h k (by rw [List.length_append]; omega)
      rwa [List.take_append_of_le_length hk] at this
    obtain ⟨hflat, hapart⟩ := ih hfits
    rw [filled_concat, put_eq]
    exact hflat.apart_insertRange hapart hroom

/-- Insertions in ascending order keep the ranges apart. -/
theorem apart_of_pairwise_first (h : is.Pairwise fun i j => i.first ≤ j.first) : (filled is).Apart := by
  rw [filled_eq_ofRanges]
  refine apart_ofRanges (List.pairwise_map.2 (h.imp fun hle => ?_))
  rw [SymbolRange.start_between, SymbolRange.start_between]
  exact symbolRank_le_iff.2 hle

/-! ## What was put in -/

theorem pairwise_lt_symbols_iff :
    a.symbols.Pairwise (· < ·) ↔ a.ranges.Pairwise fun r s => r.stop ≤ s.start := by
  simp only [← symbolRank_lt_iff]
  exact ⟨fun h => stop_le_of_nodup_symbols (nodup_symbols_iff.2 h), ascending_symbols_of_stop_le⟩

theorem mem_symbols_iff_of_beq {b : Alphabet} (h : (a == b) = true) : c ∈ a.symbols ↔ c ∈ b.symbols := by
  have hcovers : ∀ a : Alphabet, c ∈ a.symbols ↔ ∃ i ∈ a.intervals, i.1 ≤ symbolRank c ∧ symbolRank c < i.2 := by
    intro a
    rw [mem_symbols, List.any_eq_true, intervals]
    simp [SymbolRange.contains]
  rw [hcovers, hcovers, beq_iff.1 h]

/-- Of alphabets one of which has its ranges apart, the other is equal exactly if its ranges are apart as well
and it has the same symbols. -/
theorem Apart.beq_iff {b : Alphabet} (h : a.Apart) :
    (a == b) = true ↔ b.Apart ∧ ∀ c, c ∈ a.symbols ↔ c ∈ b.symbols := by
  constructor
  · exact fun heq => ⟨h.congr (Alphabet.beq_iff.1 heq), fun c => mem_symbols_iff_of_beq heq⟩
  · exact fun ⟨hb, hsymbols⟩ => Alphabet.beq_iff.2 (h.intervals_eq hb hsymbols)

end Alphabet

end FiniteAutomata
