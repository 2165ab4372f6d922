import FiniteAutomata.Pattern.Cursor
import FiniteAutomata.Pattern.Node
import FiniteAutomata.Text.Letter

/-!
# Openings of groups

A group may have a name or flags of its own. Flags between parentheses without anything else are set
for the rest of the group around them.
-/
namespace FiniteAutomata.Pattern

/-- What an opening parenthesis opens. -/
inductive Opening where
  | flags (span : Span) (settings : List FlagSetting)
  /-- A group whose parenthesis is at `span`. -/
  | group (span : Span) (captures : Bool) (settings : List FlagSetting)

/-! ### Flags -/

/-- The flag of a letter. -/
def Flag.ofChar? : Char → Option Flag
  | 'i' => some .ignoreCase
  | 'm' => some .multiLine
  | 's' => some .dotAll
  | 'U' => some .lazy
  | 'u' => some .unicode
  | 'R' => some .carriageReturns
  | 'x' => some .ignoreBlanks
  | _ => none

/-- A flag, or the sign before the flags that are unset, where it is written. -/
structure FlagItem where
  flag : Option Flag
  span : Span

/-- The settings that some items write. -/
def settingsOf (value : Bool) : List FlagItem → List FlagSetting
  | [] => []
  | ⟨some flag, _⟩ :: items => ⟨flag, value⟩ :: settingsOf value items
  | ⟨none, _⟩ :: items => settingsOf false items

/-- Adds an item that is not among the earlier ones. -/
def addFlagItem (fault : Fault) (items : List FlagItem) (item : FlagItem) :
    PatternReader (List FlagItem) :=
  match items.find? (·.flag == item.flag) with
  | some earlier => throw ⟨fault, item.span, some earlier.span⟩
  | none => return items ++ [item]

/-- Reads the next item, which starts with `c`. -/
def readFlagItem (items : List FlagItem) (c : Char) : PatternReader (List FlagItem) := do
  let span ← spanOf c
  let items ←
    if c = '-' then addFlagItem .repeatedNegation items ⟨none, span⟩
    else
      match Flag.ofChar? c with
      | none => refuse .unknownFlag span
      | some flag => addFlagItem .duplicateFlag items ⟨some flag, span⟩
  skip
  return items

/-- Reads flags up to a colon or a closing parenthesis. -/
def readFlags : PatternReader (List FlagItem) := do
  let items ← readAll peek?
    (fun items c => do
      if c = ':' ∨ c = ')' then return .inr items
      else return .inl (← readFlagItem items c))
    (fun _ => refuseHere .unfinishedFlags) []
  match items.getLast? with
  | some ⟨none, span⟩ => refuse .danglingNegation span
  | _ => return items

/-! ### Names -/

/-- Whether a character may be in the name of a group. -/
def isNameChar (first : Bool) (c : Char) : Bool :=
  c == '_' || isLetter c || (!first && (c == '.' || c == '[' || c == ']' || isNumber c))

/-- Reads the characters of a name up to the closing angle. -/
def readNameChars : PatternReader (List Char) :=
  readAll peek?
    (fun name c => do
      if c = '>' then return .inr name.reverse
      else if isNameChar name.isEmpty c then
        skip
        return .inl (c :: name)
      else refuseNext .invalidName c)
    (fun _ => refuseHere .unclosedName) []

/-- Reads the name of a group, which no earlier group has. -/
def readName : PatternReader Unit := do
  let start ← here
  let name ← readNameChars
  let span := ⟨start, ← here⟩
  skip
  if name.isEmpty then refuse .emptyName (.point start)
  let names := (← get).names
  match names.find? (·.1 == name) with
  | some (_, earlier) => throw ⟨.duplicateName, span, some earlier⟩
  | none => modify fun c => { c with names := (name, span) :: names }

/-! ### Openings -/

/-- Whether what follows looks around; it is skipped. -/
def skipLookAround : PatternReader Bool := do
  if ← skipText "?=" then return true
  if ← skipText "?!" then return true
  if ← skipText "?<=" then return true
  skipText "?<!"

/-- Whether a name follows; what announces it is skipped. -/
def skipNameStart : PatternReader Bool := do
  if ← skipText "?P<" then return true
  skipText "?<"

/-- Reads the opening of a group, at its parenthesis. -/
def readOpening : PatternReader Opening := do
  let span ← spanOf '('
  skip
  skipBlanks
  if ← skipLookAround then refuseFrom .lookAround span.start
  let inside ← here
  if ← skipNameStart then
    readName
    return .group span true []
  if ← skipText "?" then
    if (← peek?).isNone then refuse .unclosedGroup span
    let items ← readFlags
    let settings := settingsOf true items
    let closes ← nextIs ')'
    skip
    if closes then
      if items.isEmpty then refuse .missingOperand (.point inside)
      return .flags ⟨span.start, ← here⟩ settings
    return .group span false settings
  return .group span true []

end FiniteAutomata.Pattern
