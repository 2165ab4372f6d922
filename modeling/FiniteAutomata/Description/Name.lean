import FiniteAutomata.Text.Escape

/-!
# State names in the text format

A name is written as the escaped forms of its characters, one after the other. A name that is one of
the four keywords also has its first character escaped, so that the line of its transitions is not
taken for a declaration.
-/
namespace FiniteAutomata

/-- The keywords that open a declaration. -/
inductive Keyword where
  | states
  | alphabet
  | initial
  | accepting
  deriving DecidableEq, Repr

/-- The spelling of a keyword. -/
def Keyword.text : Keyword → String
  | .states => "states"
  | .alphabet => "alphabet"
  | .initial => "initial"
  | .accepting => "accepting"

/-- The keyword that a text spells. -/
def Keyword.ofText? (cs : List Char) : Option Keyword :=
  [Keyword.states, .alphabet, .initial, .accepting].find? fun k => k.text.toList == cs

/-- The written form of a name. -/
def escapeName (name : String) : List Char :=
  match (Keyword.ofText? name.toList).isSome, name.toList with
  | true, c :: cs => '\\' :: 'x' :: hexText 2 c.toNat ++ cs.flatMap escape
  | _, cs => cs.flatMap escape

/-- The characters that a text writes, `none` when an escape is wrong. -/
def readSymbols (cs : List Char) : Option (List Char) :=
  match cs with
  | [] => some []
  | d :: ds =>
    match _h : readSymbol (d :: ds) with
    | none => none
    | some (c, rest) => (readSymbols rest).map (c :: ·)
  termination_by cs.length
  decreasing_by exact length_readSymbol _h

/-- The name that a text writes. -/
def parseName? (cs : List Char) : Option String := (readSymbols cs).map String.ofList

/-- Reading goes on after the first symbol. -/
theorem readSymbols_of_readSymbol {cs rest : List Char} {c : Char}
    (h : readSymbol cs = some (c, rest)) : readSymbols cs = (readSymbols rest).map (c :: ·) := by
  cases cs with
  | nil => cases h
  | cons d ds =>
    rw [readSymbols]
    split
    · rename_i hn
      rw [h] at hn
      cases hn
    · rename_i hs
      rw [h] at hs
      obtain ⟨rfl, rfl⟩ := Prod.mk.inj (Option.some.inj hs)
      rfl

/-- A sequence of written symbols is read back. -/
theorem readSymbols_flatMap_escape (cs : List Char) :
    readSymbols (cs.flatMap escape) = some cs := by
  induction cs with
  | nil => simp [readSymbols]
  | cons c cs ih =>
    rw [List.flatMap_cons, readSymbols_of_readSymbol (readSymbol_escape c _), ih, Option.map_some]

end FiniteAutomata
