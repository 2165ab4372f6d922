import FiniteAutomata.Pattern.Cursor
import FiniteAutomata.Pattern.Node
import FiniteAutomata.Text.Hexadecimal

/-!
# Escapes in patterns

A backslash gives a special character its own meaning, and some letters a special one: they stand
for control characters, for a symbol by its number, for a class of symbols, or for an assertion.
-/
namespace FiniteAutomata.Pattern

/-- Whether a character stands for itself after a backslash. -/
def isEscapable (c : Char) : Bool := c.toNat < 0x80 && !c.isAlphanum && c != '<' && c != '>'

/-- The control character that a letter stands for. -/
def controlOf? : Char → Option Char
  | 'a' => some '\x07'
  | 'f' => some '\x0c'
  | 't' => some '\t'
  | 'n' => some '\n'
  | 'r' => some '\r'
  | 'v' => some '\x0b'
  | _ => none

/-- The class that a letter stands for, and whether it is the complement. -/
def shortClassOf? : Char → Option (ShortClass × Bool)
  | 'd' => some (.digit, false)
  | 'D' => some (.digit, true)
  | 's' => some (.blank, false)
  | 'S' => some (.blank, true)
  | 'w' => some (.word, false)
  | 'W' => some (.word, true)
  | _ => none

/-- The assertion that a character stands for. -/
def assertionOf? : Char → Option Assertion
  | 'A' => some .textStart
  | 'z' => some .textEnd
  | 'b' => some (.word .boundary)
  | 'B' => some (.word .noBoundary)
  | '<' => some (.word .start)
  | '>' => some (.word .stop)
  | _ => none

/-- The number of digits of a symbol's number after a letter. -/
def digitsAfter? : Char → Option Nat
  | 'x' => some 2
  | 'u' => some 4
  | 'U' => some 8
  | _ => none

/-- The symbol whose number has the given digits. -/
def symbolOfDigits? (digits : List Char) : Option Char :=
  match hexNumber? digits with
  | some n => if n.isValidChar then some (Char.ofNat n) else none
  | none => none

/-! ### Symbols by their numbers -/

/-- Whether a character is a hexadecimal digit. -/
def isHexDigit (c : Char) : Bool := (hexValue? c).isSome

/-- Reads `n` digits, each past the blanks after it. -/
def readDigits : Nat → PatternReader (List Char)
  | 0 => return []
  | n + 1 => do
    match ← peek? with
    | none => refuseHere .unfinishedEscape
    | some c =>
      if isHexDigit c then
        let _ ← skipWithBlanks
        return c :: (← readDigits n)
      else refuseNext .invalidHexadecimalDigit c

/-- Reads the digits up to the closing brace; `brace` is the place of the opening one. -/
def readDigitsInBraces (brace : Position) : PatternReader (List Char) :=
  readAll peekPastBlanks?
    (fun digits c => do
      if c = '\x7d' then return .inr digits.reverse
      else if isHexDigit c then
        skip
        return .inl (c :: digits)
      else refuseNext .invalidHexadecimalDigit c)
    (fun _ => refuseFrom .unfinishedEscape brace) []

/-- Reads a symbol by its number of `n` digits, or in braces; `start` is the place of the escape. -/
def readNumbered (start : Position) (n : Nat) : PatternReader Literal := do
  unless ← skipWithBlanks do refuseHere .unfinishedEscape
  let first ← here
  if ← nextIs '\x7b' then
    skip
    let inside ← here
    let digits ← readDigitsInBraces first
    let close ← here
    let _ ← skipWithBlanks
    if digits.isEmpty then refuseFrom .emptyHexadecimal first
    match symbolOfDigits? digits with
    | none => refuse .invalidHexadecimal ⟨inside, close⟩
    | some c => return ⟨⟨start, ← here⟩, c, false⟩
  else
    let digits ← readDigits n
    match symbolOfDigits? digits with
    | none => refuseFrom .invalidHexadecimal first
    | some c => return ⟨⟨start, ← here⟩, c, n == 2⟩

/-! ### Properties -/

/-- Reads the name of a property up to the closing brace. -/
def readNameInBraces : PatternReader (List Char) :=
  readAll peekPastBlanks?
    (fun name c => do
      skip
      return if c = '\x7d' then .inr name.reverse else .inl (c :: name))
    (fun _ => refuseHere .unfinishedEscape) []

/-- Reads the class of the symbols with a property: a letter, or a name in braces. -/
def readProperty (start : Position) : PatternReader Atom := do
  unless ← skipWithBlanks do refuseHere .unfinishedEscape
  match ← peek? with
  | some '\x7b' =>
    skip
    let name ← readNameInBraces
    return .property ⟨start, ← here⟩ name
  | some '\\' => refuseNext .invalidProperty '\\'
  | c =>
    let _ ← skipWithBlanks
    return .property ⟨start, ← here⟩ c.toList

/-! ### Words -/

/-- The places of words that have a name. -/
def WordPlace.ofName? (name : List Char) : Option WordPlace :=
  match String.ofList name with
  | "start" => some .start
  | "end" => some .stop
  | "start-half" => some .startHalf
  | "end-half" => some .stopHalf
  | _ => none

/-- Whether a character may be in the name of a place of words. -/
def isPlaceNameChar (c : Char) : Bool := c.isAlpha || c == '-'

/--
Reads the name of a place of words in braces; `start` is the place of the escape before it. Braces
that start with something else are left: they may count repetitions.
-/
def readWordPlace? (start : Position) : PatternReader (Option WordPlace) := do
  let saved ← get
  unless ← skipWithBlanks do refuseFrom .unfinishedBoundary start
  let inside ← here
  let name ← skipWhile isPlaceNameChar do let _ ← skipWithBlanks
  if name.isEmpty then
    set saved
    return none
  unless ← nextIs '\x7d' do refuseFrom .unclosedBoundary saved.position
  let close ← here
  skip
  match WordPlace.ofName? name with
  | none => refuse .unknownBoundary ⟨inside, close⟩
  | some place => return some place

/-! ### All escapes -/

/-- Reads an escape of a single character, which is `c`; `start` is the place of the backslash. -/
def readSimpleEscape (start : Position) (c : Char) : PatternReader Atom := do
  skip
  if isEscapable c then return .literal ⟨⟨start, ← here⟩, c, false⟩
  if let some d := controlOf? c then return .literal ⟨⟨start, ← here⟩, d, false⟩
  if let some (k, negated) := shortClassOf? c then return .short ⟨start, ← here⟩ k negated
  match assertionOf? c with
  | none => refuseFrom .unknownEscape start
  | some a =>
    if c = 'b' then
      if ← nextIs '\x7b' then
        if let some place ← readWordPlace? start then
          return .assertion ⟨start, ← here⟩ (.word place)
    return .assertion ⟨start, ← here⟩ a

/-- Reads an escape. -/
def readEscape : PatternReader Atom := do
  let start ← here
  skip
  match ← peek? with
  | none => refuseFrom .unfinishedEscape start
  | some c =>
    if c.isDigit then refuse .backreference ⟨start, (← here).past c⟩
    else if c = 'p' ∨ c = 'P' then readProperty start
    else
      match digitsAfter? c with
      | some n => return .literal (← readNumbered start n)
      | none => readSimpleEscape start c

end FiniteAutomata.Pattern
