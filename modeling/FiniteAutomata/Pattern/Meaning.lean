import FiniteAutomata.Pattern.Expression
import FiniteAutomata.Pattern.Fault

/-!
# The meaning of patterns

The expression that a pattern stands for depends on the flags that are set where a part of it
stands. Symbols are matched without regard to case among ASCII letters alone, and only where bytes
are matched; there, symbols beyond ASCII stand in no class, and no class may be negated.
-/
namespace FiniteAutomata.Pattern

/-- The flags that matter to what a pattern matches. -/
structure Flags where
  ignoreCase : Bool := false
  multiLine : Bool := false
  dotAll : Bool := false
  /-- Whether few repetitions are preferred. -/
  isLazy : Bool := false
  unicode : Bool := true
  carriageReturns : Bool := false
  deriving DecidableEq, Repr

/-- The flags after a setting. -/
def Flags.apply (f : Flags) (s : FlagSetting) : Flags :=
  match s.flag with
  | .ignoreCase => { f with ignoreCase := s.value }
  | .multiLine => { f with multiLine := s.value }
  | .dotAll => { f with dotAll := s.value }
  | .unicode => { f with unicode := s.value }
  | .carriageReturns => { f with carriageReturns := s.value }
  | .lazy => { f with isLazy := s.value }
  | .ignoreBlanks => f

/-- Fails with a fault of a part of the pattern. -/
def faultAt {α : Type} (fault : Fault) (span : Span) : Except FaultAt α :=
  .error ⟨fault, span, none⟩

/-! ### Atoms -/

/-- The other cases of letters, where they match too. -/
def Flags.withCases (f : Flags) (s : SymbolSet) : SymbolSet :=
  if f.ignoreCase then s.withCases else s

/-- The expression of a symbol that stands outside of a class. -/
def Literal.meaning (f : Flags) (l : Literal) : Except FaultAt Expression :=
  if f.unicode then
    if f.ignoreCase then faultAt .unknownCases l.span else .ok (.literal [l.symbol])
  else if l.isByte && 0x80 ≤ l.symbol.toNat then faultAt .invalidText l.span
  else .ok (.ofSet (f.withCases (.single l.symbol)) true)

/-- The symbols that the dot matches. -/
def dotSet (f : Flags) (span : Span) : Except FaultAt SymbolSet :=
  if f.unicode then
    if f.dotAll then .ok SymbolSet.empty.complement
    else if f.carriageReturns then .ok (SymbolSet.ofEnds [('\n', '\n'), ('\r', '\r')]).complement
    else .ok (SymbolSet.single '\n').complement
  else faultAt .invalidText span

/-- What an assertion requires of a place. -/
def Assertion.look (f : Flags) : Assertion → Look
  | textStart => .textStart
  | textEnd => .textEnd
  | word place => .word place f.unicode
  | lineStart =>
    if f.multiLine then if f.carriageReturns then .lineStartAfterReturn else .lineStart
    else .textStart
  | lineEnd =>
    if f.multiLine then if f.carriageReturns then .lineEndBeforeReturn else .lineEnd
    else .textEnd

/-- The symbols of the class that an escaped letter stands for. -/
def shortSet (f : Flags) (span : Span) (k : ShortClass) (negated : Bool) :
    Except FaultAt SymbolSet :=
  if f.unicode then faultAt .unknownClass span
  else if negated then faultAt .invalidText span
  else .ok k.set

/-- The name of a property without case, separators and the word in front of it. -/
def propertyKey (name : List Char) : List Char :=
  let lower := name.map Char.toLower
  let bare := if ['i', 's'].isPrefixOf lower then lower.drop 2 else lower
  bare.filter fun c => c != ' ' && c != '_' && c != '-' && c.toNat < 0x80

/--
The fault of a property: none is known. Of names that could be values of a property, the value is
not known.
-/
def propertyFault (f : Flags) (name : List Char) : Fault :=
  if !f.unicode then .symbolAmongBytes
  else if String.ofList (propertyKey name) ∈ ["cf", "sc", "lc"] then .unknownPropertyValue
  else .unknownProperty

/-- The expression of an atom. -/
def Atom.meaning (f : Flags) : Atom → Except FaultAt Expression
  | literal l => l.meaning f
  | dot span => (dotSet f span).map (.ofSet · false)
  | assertion _ a => .ok (.look (a.look f))
  | short span k negated => (shortSet f span k negated).map (.ofSet · true)
  | property span name => faultAt (propertyFault f name) span

/-! ### Classes -/

/-- The symbols of a class. -/
structure ClassContent where
  set : SymbolSet
  /-- Whether symbols are among them whose other cases may be missing. -/
  isCased : Bool := false

/-- Checks that a symbol may stand in a class. -/
def Literal.checkInClass (f : Flags) (l : Literal) : Except FaultAt Unit :=
  if f.unicode || l.symbol.toNat < 0x80 then .ok ()
  else faultAt (if l.isByte then .invalidText else .symbolAmongBytes) l.span

/-- The content with the other cases of its letters, where they match too. -/
def ClassContent.fold (f : Flags) (span : Span) (c : ClassContent) :
    Except FaultAt ClassContent :=
  if !f.ignoreCase then .ok c
  else if !f.unicode then .ok ⟨c.set.withCases, false⟩
  else if c.isCased then faultAt .unknownCases span
  else .ok c

/-- The content of a class that is closed, or of its complement. -/
def ClassContent.close (f : Flags) (span : Span) (negated : Bool) (c : ClassContent) :
    Except FaultAt ClassContent := do
  let c ← c.fold f span
  if negated && !f.unicode then faultAt .invalidText span
  else return ⟨c.set.negatedIf negated, c.isCased⟩

mutual

/-- The symbols of a class. -/
def ClassNode.content (f : Flags) : ClassNode → Except FaultAt ClassContent
  | .empty _ => .ok ⟨.empty, false⟩
  | .literal l => do
    l.checkInClass f
    return ⟨.single l.symbol, true⟩
  | .range _ first last => do
    first.checkInClass f
    last.checkInClass f
    return ⟨.ofEnds [(first.symbol, last.symbol)], true⟩
  | .ascii span k negated => ClassContent.close f span negated ⟨k.set, true⟩
  | .short span k negated => do return ⟨← shortSet f span k negated, false⟩
  | .property span name => faultAt (propertyFault f name) span
  | .bracket span negated content => do (← content.content f).close f span negated
  | .union _ items => unionContent f ⟨.empty, false⟩ items
  | .operation _ k left right => do
    let a ← left.content f
    let b ← right.content f
    let b ← b.fold f right.span
    let a ← a.fold f left.span
    return ⟨.combine k a.set b.set, false⟩

/-- The symbols of some classes together, added to others. -/
def unionContent (f : Flags) (c : ClassContent) : List ClassNode → Except FaultAt ClassContent
  | [] => .ok c
  | n :: ns => do
    let d ← n.content f
    unionContent f ⟨.union c.set d.set, c.isCased || d.isCased⟩ ns

end

/-! ### Patterns -/

mutual

/-- The expression of a pattern, and the flags after it. -/
def Node.meaning (f : Flags) : Node → Except FaultAt (Expression × Flags)
  | .empty _ => .ok (.empty, f)
  | .flags _ settings => .ok (.empty, settings.foldl Flags.apply f)
  | .atom a => do return (← a.meaning f, f)
  | .bracket span negated content => do
    let c ← (← content.content f).close f span negated
    return (.ofSet c.set !f.unicode, f)
  | .repetition _ least most isLazy operand => do
    let (e, f) ← operand.meaning f
    return (e.repetition least most (isLazy != f.isLazy), f)
  | .group span captures settings content => do
    let (e, _) ← content.meaning (settings.foldl Flags.apply f)
    return (if captures then .captured span.start e else e, f)
  | .alternatives _ branches => do
    let (es, f) ← meanings f branches
    return (.oneOfThese es, f)
  | .concatenation _ items => do
    let (es, f) ← meanings f items
    return (.inSequence es, f)

/-- The expressions of some patterns, each read with the flags after the one before. -/
def meanings (f : Flags) : List Node → Except FaultAt (List Expression × Flags)
  | [] => .ok ([], f)
  | n :: ns => do
    let (e, f) ← n.meaning f
    let (es, f) ← meanings f ns
    return (e :: es, f)

end

end FiniteAutomata.Pattern
