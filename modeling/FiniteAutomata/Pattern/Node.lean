import FiniteAutomata.Pattern.Span

/-!
# The structure of patterns

A pattern is a tree of which every node knows the part of the pattern that it was read from. Classes
of symbols between brackets are trees of their own.
-/
namespace FiniteAutomata.Pattern

/-- What the flags of a pattern change. -/
inductive Flag where
  /-- Letters match in either case. -/
  | ignoreCase
  /-- Lines have starts and ends. -/
  | multiLine
  /-- The dot matches line ends too. -/
  | dotAll
  /-- Few repetitions are preferred, unless a question mark follows. -/
  | lazy
  /-- Symbols are matched, not bytes. -/
  | unicode
  /-- Carriage returns are line ends too. -/
  | carriageReturns
  | ignoreBlanks
  deriving DecidableEq, Repr

/-- A flag and whether it is set or unset. -/
structure FlagSetting where
  flag : Flag
  value : Bool
  deriving DecidableEq, Repr

/-- A symbol, as it is written in a pattern. -/
structure Literal where
  span : Span
  symbol : Char
  /-- Whether it is written as the two digits of a byte. -/
  isByte : Bool := false
  deriving DecidableEq, Repr, Inhabited

/-- What is asserted of the words at a place. -/
inductive WordPlace where
  | boundary
  | noBoundary
  | start
  | stop
  /-- No word before the place. -/
  | startHalf
  /-- No word after the place. -/
  | stopHalf
  deriving DecidableEq, Repr

/-- What is asserted of a place. -/
inductive Assertion where
  | lineStart
  | lineEnd
  | textStart
  | textEnd
  | word (place : WordPlace)
  deriving DecidableEq, Repr

/-- The classes of symbols that an escaped letter stands for. -/
inductive ShortClass where
  | digit
  | blank
  | word
  deriving DecidableEq, Repr

/-- The classes of ASCII symbols that have a name. -/
inductive AsciiClass where
  | alnum
  | alpha
  | ascii
  | blank
  | cntrl
  | digit
  | graph
  | lower
  | print
  | punct
  | space
  | upper
  | word
  | xdigit
  deriving DecidableEq, Repr

/-- The operations on two classes. -/
inductive ClassOperator where
  | intersection
  | difference
  | symmetricDifference
  deriving DecidableEq, Repr

/-- A part of a pattern without parts of its own. -/
inductive Atom where
  | literal (l : Literal)
  | dot (span : Span)
  | assertion (span : Span) (a : Assertion)
  | short (span : Span) (k : ShortClass) (negated : Bool)
  /-- The symbols with a property. -/
  | property (span : Span) (name : List Char)
  deriving DecidableEq, Repr

/-- A class of symbols, or a part of one. -/
inductive ClassNode where
  | empty (span : Span)
  | literal (l : Literal)
  | range (span : Span) (first last : Literal)
  | ascii (span : Span) (k : AsciiClass) (negated : Bool)
  | short (span : Span) (k : ShortClass) (negated : Bool)
  | property (span : Span) (name : List Char)
  | bracket (span : Span) (negated : Bool) (content : ClassNode)
  | union (span : Span) (items : List ClassNode)
  | operation (span : Span) (k : ClassOperator) (left right : ClassNode)

/-- A pattern, or a part of one. -/
inductive Node where
  | empty (span : Span)
  /-- Flags for the rest of the group. -/
  | flags (span : Span) (settings : List FlagSetting)
  | atom (a : Atom)
  | bracket (span : Span) (negated : Bool) (content : ClassNode)
  | repetition (span : Span) (least : Nat) (most : Option Nat) (isLazy : Bool) (operand : Node)
  | group (span : Span) (captures : Bool) (settings : List FlagSetting) (content : Node)
  | alternatives (span : Span) (branches : List Node)
  | concatenation (span : Span) (items : List Node)

/-- The part of the pattern that an atom was read from. -/
def Atom.span : Atom → Span
  | literal l => l.span
  | dot span | assertion span _ | short span _ _ | property span _ => span

/-- The part of the pattern that a class was read from. -/
def ClassNode.span : ClassNode → Span
  | literal l => l.span
  | empty span | range span _ _ | ascii span _ _ | short span _ _ | property span _
  | bracket span _ _ | union span _ | operation span _ _ _ => span

/-- The part of the pattern that a node was read from. -/
def Node.span : Node → Span
  | atom a => a.span
  | empty span | flags span _ | bracket span _ _ | repetition span _ _ _ _
  | group span _ _ _
  | alternatives span _ | concatenation span _ => span

/-- The value that settings give to a flag, if they do. -/
def valueOf? (flag : Flag) (settings : List FlagSetting) : Option Bool :=
  (settings.find? (·.flag == flag)).map (·.value)

instance : Inhabited ClassNode := ⟨.empty default⟩
instance : Inhabited Node := ⟨.empty default⟩

end FiniteAutomata.Pattern
