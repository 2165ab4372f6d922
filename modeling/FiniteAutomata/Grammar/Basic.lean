import FiniteAutomata.Alphabet
import FiniteAutomata.Collection.Table

/-!
# Right-linear grammars

A production of a non-terminal is a text: a terminal followed by the name of a non-terminal, a
terminal alone, the name of a non-terminal alone, or nothing. Non-terminals are listed in the order
in which they were added; their productions are looked up by name.
-/
namespace FiniteAutomata

/-- Why a grammar cannot be built or converted. -/
inductive GrammarError where
  | undefinedNonTerminal (name : String)
  | redefinedNonTerminal (name : String)
  | notRightLinear (nonTerminal production : String)
  deriving DecidableEq, Repr

def GrammarError.message : GrammarError → String
  | .undefinedNonTerminal n => s!"undefined non-terminal `{n}`"
  | .redefinedNonTerminal n => s!"redefined non-terminal `{n}`"
  | .notRightLinear n p => s!"production `{p}` of `{n}` is not right-linear"

/-- A right-linear grammar. -/
structure Grammar where
  nonTerminals : List String
  terminals : Alphabet
  productions : Table String (List String)
  start : String
  deriving BEq, Inhabited

namespace Grammar

/-- The grammar whose only non-terminal is the start symbol, without productions. -/
def new (terminals : Alphabet) (start : String) : Grammar :=
  ⟨[start], terminals, (∅ : Table String (List String)).insert start [], start⟩

/-- Whether a name has an entry for its productions. -/
def isDefined (g : Grammar) (name : String) : Bool := g.productions.contains name

/-- The productions of a non-terminal, none for an unknown name. -/
def productionsOf (g : Grammar) (name : String) : List String := (g.productions.get? name).getD []

/-- The number of productions. -/
def productionCount (g : Grammar) : Nat := g.productions.values.flatten.length

/-- Adds a non-terminal without productions. -/
def addNonTerminal (g : Grammar) (name : String) : Except GrammarError Grammar :=
  if g.isDefined name then .error (.redefinedNonTerminal name)
  else .ok { g with
    productions := g.productions.insert name []
    nonTerminals := g.nonTerminals ++ [name] }

/-- Adds a production to a non-terminal, after those that it has. -/
def addProduction (g : Grammar) (name production : String) : Except GrammarError Grammar :=
  match g.productions.get? name with
  | some ps => .ok { g with productions := g.productions.insert name (ps ++ [production]) }
  | none => .error (.undefinedNonTerminal name)

/-- A production as it is shown, the empty one as `ε`. -/
def shownProduction (production : String) : String := if production.isEmpty then "ε" else production

/-- The line of a non-terminal and its productions. -/
def line (name : String) (productions : List String) : String :=
  name ++ " -> " ++ " | ".intercalate (productions.map shownProduction) ++ "\n"

/-- The text of the grammar: a line for each non-terminal that has productions. -/
def text (g : Grammar) : String :=
  String.join <| g.nonTerminals.map fun n =>
    match g.productionsOf n with
    | [] => ""
    | ps => line n ps

end Grammar

end FiniteAutomata
