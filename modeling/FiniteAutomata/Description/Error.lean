import FiniteAutomata.Description.Name

/-!
# Errors in descriptions

Why a text does not describe an automaton. Lines are numbered from one; what a line holds is
reported as it is written.
-/
namespace FiniteAutomata

/-- Why a text does not describe an automaton. -/
inductive DescriptionError where
  | missingColon (line : Nat)
  | duplicate (line : Nat) (keyword : Keyword)
  | missing (keyword : Keyword)
  | invalidSymbol (line : Nat) (symbol : List Char)
  | invalidName (line : Nat) (name : List Char)
  | invalidInitial (line : Nat)
  | undeclaredInitial (line : Nat) (name : String)
  | invalidTransition (line : Nat) (entry : List Char)
  deriving DecidableEq, Repr

/-- A message about a line. -/
private def about (line : Nat) (text : String) : String := s!"line {line}: {text}"

/-- Text between backquotes. -/
private def quoted (text : String) : String := "`" ++ text ++ "`"

def DescriptionError.message : DescriptionError → String
  | .missingColon n => about n "expected `<name>: <values>`"
  | .duplicate n k => about n ("duplicate " ++ quoted k.text ++ " declaration")
  | .missing k => "missing " ++ quoted k.text ++ " declaration"
  | .invalidSymbol n s => about n ("invalid symbol " ++ quoted (String.ofList s))
  | .invalidName n s => about n ("invalid state name " ++ quoted (String.ofList s))
  | .invalidInitial n => about n "expected exactly one initial state"
  | .undeclaredInitial n s => about n ("initial state " ++ quoted s ++ " is not declared")
  | .invalidTransition n e => about n ("invalid transition " ++ quoted (String.ofList e))

end FiniteAutomata
