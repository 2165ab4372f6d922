import FiniteAutomata.Pattern.Span

/-!
# Faults of patterns

What can be wrong with a pattern, and the part of the pattern where it is wrong.
-/
namespace FiniteAutomata.Pattern

/-- What is wrong with a part of a pattern. -/
inductive Fault where
  /-- An escape in a class that does not stand for symbols. -/
  | escapeInClass
  | reversedRange
  /-- An end of a range that is not a symbol. -/
  | rangeEnd
  | unclosedClass
  | missingCount
  | countTooLarge
  | reversedCount
  | unclosedCount
  /-- A repetition of nothing. -/
  | missingOperand
  | emptyHexadecimal
  | invalidHexadecimal
  | invalidHexadecimalDigit
  | unfinishedEscape
  | unknownEscape
  | backreference
  | invalidProperty
  | danglingNegation
  | duplicateFlag
  | repeatedNegation
  | unfinishedFlags
  | unknownFlag
  | duplicateName
  | emptyName
  | invalidName
  | unclosedName
  | unclosedGroup
  | unopenedGroup
  | lookAround
  | tooDeep
  | unclosedBoundary
  | unknownBoundary
  | unfinishedBoundary
  /-- A symbol beyond ASCII where bytes are matched. -/
  | symbolAmongBytes
  /-- An expression that matches bytes which are no text. -/
  | invalidText
  | unknownProperty
  | unknownPropertyValue
  /-- A class of digits, blanks or word characters in all of Unicode. -/
  | unknownClass
  /-- Symbols that are to match in either case. -/
  | unknownCases
  deriving DecidableEq, Repr

/-- The number of levels to which parts of a pattern may be nested. -/
def maxDepth : Nat := 250

namespace Fault

def message : Fault → String
  | escapeInClass => "invalid escape sequence found in character class"
  | reversedRange => "invalid character class range, the start must be <= the end"
  | rangeEnd => "invalid range boundary, must be a literal"
  | unclosedClass => "unclosed character class"
  | missingCount => "repetition quantifier expects a valid decimal"
  | countTooLarge => "decimal literal invalid"
  | reversedCount => "invalid repetition count range, the start must be <= the end"
  | unclosedCount => "unclosed counted repetition"
  | missingOperand => "repetition operator missing expression"
  | emptyHexadecimal => "hexadecimal literal empty"
  | invalidHexadecimal => "hexadecimal literal is not a Unicode scalar value"
  | invalidHexadecimalDigit => "invalid hexadecimal digit"
  | unfinishedEscape => "incomplete escape sequence, reached end of pattern prematurely"
  | unknownEscape => "unrecognized escape sequence"
  | backreference => "backreferences are not supported"
  | invalidProperty => "invalid Unicode character class"
  | danglingNegation => "dangling flag negation operator"
  | duplicateFlag => "duplicate flag"
  | repeatedNegation => "flag negation operator repeated"
  | unfinishedFlags => "expected flag but got end of regex"
  | unknownFlag => "unrecognized flag"
  | duplicateName => "duplicate capture group name"
  | emptyName => "empty capture group name"
  | invalidName => "invalid capture group character"
  | unclosedName => "unclosed capture group name"
  | unclosedGroup => "unclosed group"
  | unopenedGroup => "unopened group"
  | lookAround => "look-around, including look-ahead and look-behind, is not supported"
  | tooDeep =>
    "exceed the maximum number of nested parentheses/brackets (" ++ toString maxDepth ++ ")"
  | unclosedBoundary =>
    "special word boundary assertion is either unclosed or contains an invalid character"
  | unknownBoundary =>
    "unrecognized special word boundary assertion, valid choices are: " ++
      "start, end, start-half or end-half"
  | unfinishedBoundary =>
    "found either the beginning of a special word boundary or a bounded repetition on a \\b " ++
      "with an opening brace, but no closing brace"
  | symbolAmongBytes => "Unicode not allowed here"
  | invalidText => "pattern can match invalid UTF-8"
  | unknownProperty => "Unicode property not found"
  | unknownPropertyValue => "Unicode property value not found"
  | unknownClass =>
    "Unicode-aware Perl class not found (make sure the unicode-perl feature is enabled)"
  | unknownCases =>
    "Unicode-aware case insensitivity matching is not available " ++
      "(make sure the unicode-case feature is enabled)"

end Fault

/-- A fault of a pattern and where it is. -/
structure FaultAt where
  fault : Fault
  span : Span
  /-- An earlier part of the pattern that this one repeats. -/
  earlier : Option Span := none
  deriving DecidableEq, Repr

end FiniteAutomata.Pattern
