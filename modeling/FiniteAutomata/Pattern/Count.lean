import FiniteAutomata.Pattern.Cursor

/-!
# Counted repetitions

In braces stand the number of repetitions, or the least number and a comma, which the greatest
number may follow. A question mark after them prefers few repetitions.
-/
namespace FiniteAutomata.Pattern

/-- Numbers of repetitions, without bound if there is no greatest one. -/
structure Count where
  least : Nat
  most : Option Nat
  /-- Whether a question mark follows. -/
  isLazy : Bool := false
  deriving DecidableEq, Repr

/-- Whether the least number is not above the greatest one. -/
def Count.isValid (c : Count) : Bool :=
  match c.most with
  | none => true
  | some n => c.least ≤ n

/-- The number that decimal digits write. -/
def decimalValue (digits : List Char) : Nat :=
  digits.foldl (fun n c => 10 * n + (c.toNat - 48)) 0

/-- Reads a number of at most 32 bits among blanks; what is wrong with it may be reported later. -/
def readDecimal : PatternReader (Except FaultAt Nat) := do
  let _ ← skipWhile isBlank skip
  let start ← here
  let digits ← skipWhile Char.isDigit do let _ ← skipWithBlanks
  let span := ⟨start, ← here⟩
  let _ ← skipWhile isBlank do let _ ← skipWithBlanks
  let n := decimalValue digits
  return if digits.isEmpty then .error ⟨.missingCount, span, none⟩
    else if n < UInt32.size then .ok n
    else .error ⟨.countTooLarge, span, none⟩

/-- Reads what follows the least number, up to the closing brace. -/
def readCountAfter (start : Position) (least : Except FaultAt Nat) : PatternReader Count := do
  match ← peek? with
  | none => refuseFrom .unclosedCount start
  | some ',' =>
    unless ← skipWithBlanks do refuseFrom .unclosedCount start
    if ← nextIs '\x7d' then return { least := ← least, most := none }
    let least ← least
    let most ← readDecimal
    return { least, most := some (← most) }
  | some _ =>
    let n ← least
    return { least := n, most := some n }

/-- Reads numbers of repetitions in braces, at the opening brace. -/
def readCount : PatternReader Count := do
  let start ← here
  unless ← skipWithBlanks do refuseFrom .unclosedCount start
  let least ← readDecimal
  let count ← readCountAfter start least
  unless ← nextIs '\x7d' do refuseFrom .unclosedCount start
  let _ ← skipWithBlanks
  let isLazy ← skipText "?"
  unless count.isValid do refuseFrom .reversedCount start
  return { count with isLazy }

end FiniteAutomata.Pattern
