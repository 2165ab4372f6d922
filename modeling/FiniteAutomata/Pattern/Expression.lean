import FiniteAutomata.Pattern.Place
import FiniteAutomata.Pattern.SymbolSet

/-!
# Regular expressions

Expressions are built by functions that simplify them: sequences and alternatives are not nested
directly, symbols in a row are one literal, alternatives of single symbols or of sets are one set,
and what all alternatives start with is taken out in front of them.
-/
namespace FiniteAutomata.Pattern

/-- A regular expression. -/
inductive Expression where
  | empty
  | literal (symbols : List Char)
  /-- A symbol of a set, where bytes are matched or symbols. -/
  | oneOf (s : SymbolSet) (ofBytes : Bool)
  | look (l : Look)
  | sequence (es : List Expression)
  | either (es : List Expression)
  /-- The content of the group that starts at a place. -/
  | captured (group : Position) (e : Expression)
  | repeated (e : Expression) (least : Nat) (most : Option Nat) (isLazy : Bool)
  deriving Inhabited

namespace Expression

/-! ### Equality -/

mutual

/-- Whether two expressions are the same. -/
def isSame : Expression → Expression → Bool
  | .empty, .empty => true
  | .literal cs, .literal ds => cs == ds
  | .oneOf s b, .oneOf t c => s == t && b == c
  | .look l, .look m => l == m
  | .sequence es, .sequence ds | .either es, .either ds => areSame es ds
  | .captured p e, .captured q d => p == q && e.isSame d
  | .repeated e k m b, .repeated d l n c => e.isSame d && k == l && m == n && b == c
  | _, _ => false

/-- Whether two lists of expressions are the same. -/
def areSame : List Expression → List Expression → Bool
  | [], [] => true
  | e :: es, d :: ds => e.isSame d && areSame es ds
  | _, _ => false

end

/-! ### What expressions match -/

mutual

/-- Whether only the empty text can match. -/
def matchesNothingElse : Expression → Bool
  | .empty | .look _ => true
  | .literal _ | .oneOf _ _ => false
  | .sequence es | .either es => allMatchNothingElse es
  | .captured _ e => e.matchesNothingElse
  | .repeated e _ most _ => e.matchesNothingElse && most.isSome

/-- Whether only the empty text can match each of some expressions. -/
def allMatchNothingElse : List Expression → Bool
  | [] => true
  | e :: es => e.matchesNothingElse && allMatchNothingElse es

end

mutual

/-- Whether every match has a symbol; none if something cannot be matched at all. -/
def needsSymbol? : Expression → Option Bool
  | .empty | .look _ => some false
  | .literal _ => some true
  | .oneOf s _ => if s.ranges.isEmpty then none else some true
  | .sequence es => someNeedsSymbol? es
  | .either es => allNeedSymbol? es
  | .captured _ e => e.needsSymbol?
  | .repeated e least _ _ => e.needsSymbol?.map (· && least != 0)

/-- Whether every match of a sequence has a symbol. -/
def someNeedsSymbol? : List Expression → Option Bool
  | [] => some false
  | e :: es => do return (← e.needsSymbol?) || (← someNeedsSymbol? es)

/-- Whether every match of some alternatives has a symbol. -/
def allNeedSymbol? : List Expression → Option Bool
  | [] => some true
  | e :: es => do return (← e.needsSymbol?) && (← allNeedSymbol? es)

end

/-! ### Sets and repetitions -/

/-- A symbol of a set. -/
def ofSet (s : SymbolSet) (ofBytes : Bool) : Expression :=
  if s.ranges.isEmpty then oneOf .empty true
  else
    match s.single? with
    | some c => literal [c]
    | none => oneOf s ofBytes

/-- An expression repeated: what matches the empty text alone is repeated at most once. -/
def repetition (e : Expression) (least : Nat) (most : Option Nat) (isLazy : Bool) : Expression :=
  let (least, most) :=
    if e.matchesNothingElse then (min least 1, some (min (most.getD 1) 1)) else (least, most)
  if most = some 0 then empty
  else if least = 1 ∧ most = some 1 then e
  else repeated e least most isLazy

/-! ### Sequences -/

/-- The parts of an expression in a sequence. -/
def parts : Expression → List Expression
  | empty => []
  | sequence es => es
  | e => [e]

/-- A sequence in which literals in a row are one. -/
def joinLiterals : List Expression → List Expression
  | [] => []
  | literal cs :: es =>
    match joinLiterals es with
    | literal ds :: es => literal (cs ++ ds) :: es
    | es => literal cs :: es
  | e :: es => e :: joinLiterals es

/-- Expressions one after the other. -/
def inSequence (es : List Expression) : Expression :=
  match joinLiterals (es.flatMap parts) with
  | [] => empty
  | [e] => e
  | es => sequence es

/-! ### Alternatives -/

/-- The alternatives of an expression. -/
def branches : Expression → List Expression
  | either es => es
  | e => [e]

/-- The symbols, if every alternative is a single one. -/
def singleSymbols? (es : List Expression) : Option (List Char) :=
  es.mapM fun
    | literal [c] => some c
    | _ => none

/-- The sets, if every alternative is one. -/
def symbolSets? (es : List Expression) : Option (List SymbolSet) :=
  es.mapM fun
    | oneOf s _ => some s
    | _ => none

/-- The sequences, if every alternative is one. -/
def sequences? (es : List Expression) : Option (List (List Expression)) :=
  es.mapM fun
    | sequence es => some es
    | _ => none

/-- What two lists start with. -/
def commonStart : List Expression → List Expression → List Expression
  | d :: ds, e :: es => if d.isSame e then d :: commonStart ds es else []
  | _, _ => []

/-- What all alternatives start with, if they are sequences, and what follows it in each. -/
def liftStart? (es : List Expression) : Option (List Expression × List (List Expression)) := do
  match ← sequences? es with
  | [] => none
  | s :: ss =>
    let start := ss.foldl commonStart s
    if start.isEmpty then none
    else return (start, (s :: ss).map (·.drop start.length))

/-- The alternatives, simplified; what they start with is taken out at most `n` times. -/
def simplifyEither : Nat → List Expression → Expression
  | n, es =>
    match es.flatMap branches with
    | [] => ofSet .empty true
    | [e] => e
    | es =>
      match singleSymbols? es, symbolSets? es with
      | some cs, _ => ofSet (.ofRanges (cs.map fun c => .between c c)) false
      | none, some ss => ofSet (.ofRanges (ss.flatMap (·.ranges))) false
      | none, none =>
        match n, liftStart? es with
        | n + 1, some (start, rests) =>
          inSequence (start ++ [simplifyEither n (rests.map inSequence)])
        | _, _ => either es

mutual

/-- The number of expressions that an expression is made of. -/
def size : Expression → Nat
  | .sequence es | .either es => sizeOfAll es + 1
  | .captured _ e | .repeated e _ _ _ => e.size + 1
  | _ => 1

/-- The number of expressions that some expressions are made of. -/
def sizeOfAll : List Expression → Nat
  | [] => 0
  | e :: es => e.size + sizeOfAll es

end

/-- One of some expressions. -/
def oneOfThese (es : List Expression) : Expression := simplifyEither (sizeOfAll es) es

/-! ### Requirements -/

mutual

/-- Whether the expression requires words of all of Unicode. -/
def asksForUnicodeWords : Expression → Bool
  | .look (.word _ unicode) => unicode
  | .empty | .literal _ | .oneOf _ _ | .look _ => false
  | .sequence es | .either es => someAskForUnicodeWords es
  | .captured _ e | .repeated e _ _ _ => e.asksForUnicodeWords

/-- Whether one of some expressions requires words of all of Unicode. -/
def someAskForUnicodeWords : List Expression → Bool
  | [] => false
  | e :: es => e.asksForUnicodeWords || someAskForUnicodeWords es

end

mutual

/-- Whether every match starts at the start of the text. -/
def isStartAnchored : Expression → Bool
  | .look l => l == .textStart
  | .empty | .literal _ | .oneOf _ _ => false
  | .sequence es => sequenceIsStartAnchored es
  | .either es => allAreStartAnchored es
  | .captured _ e => e.isStartAnchored
  | .repeated e least _ _ => least != 0 && e.isStartAnchored

/-- Whether every match of a sequence starts at the start of the text. -/
def sequenceIsStartAnchored : List Expression → Bool
  | [] => false
  | e :: es => e.isStartAnchored || (e.matchesNothingElse && sequenceIsStartAnchored es)

/-- Whether every match of some expressions starts at the start of the text. -/
def allAreStartAnchored : List Expression → Bool
  | [] => true
  | e :: es => e.isStartAnchored && allAreStartAnchored es

end

mutual

/-- Whether every match ends at the end of the text. -/
def isEndAnchored : Expression → Bool
  | .look l => l == .textEnd
  | .empty | .literal _ | .oneOf _ _ => false
  | .sequence es => sequenceIsEndAnchored es
  | .either es => allAreEndAnchored es
  | .captured _ e => e.isEndAnchored
  | .repeated e least _ _ => least != 0 && e.isEndAnchored

/-- Whether every match of a sequence ends at the end of the text. -/
def sequenceIsEndAnchored : List Expression → Bool
  | [] => false
  | e :: es =>
    sequenceIsEndAnchored es || (allMatchNothingElse es && e.isEndAnchored)

/-- Whether every match of some expressions ends at the end of the text. -/
def allAreEndAnchored : List Expression → Bool
  | [] => true
  | e :: es => e.isEndAnchored && allAreEndAnchored es

end

end Expression

end FiniteAutomata.Pattern
