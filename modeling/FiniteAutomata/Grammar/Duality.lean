import FiniteAutomata.Automaton.Basic
import FiniteAutomata.Grammar.Basic
import FiniteAutomata.Naming

/-!
# Grammars and automata

An automaton is written as a grammar state by state: a transition becomes its symbol followed by the
name of its destination, an epsilon transition the name alone, and a final state gets the empty
production. A grammar is read as an automaton production by production. A text that names a
non-terminal as a whole is read as an epsilon transition, before its first symbol is looked at. The
productions of a terminal alone lead to one fresh final state.
-/
namespace FiniteAutomata

namespace Grammar

/-! ### From an automaton -/

/-- The production of a transition. -/
def transitionText (label : Label) (target : String) : String :=
  match label with
  | some c => String.singleton c ++ target
  | none => target

/-- The productions of a state. -/
def stateProductions (a : Automaton) (q : Nat) : List String :=
  let moves := ((a.row? q).getD ∅).entries.flatMap fun e =>
    e.2.toList.map fun r => transitionText e.1 (a.display r)
  if a.isFinal q then moves ++ [""] else moves

/-- Adds the non-terminal of a state, if it is new, and the productions of the state. -/
def addState (a : Automaton) (g : Grammar) (q : Nat) : Grammar :=
  let name := a.display q
  { g with
    nonTerminals := if g.isDefined name then g.nonTerminals else g.nonTerminals ++ [name]
    productions := g.productions.upsert name [] (· ++ stateProductions a q) }

/-- The grammar of an automaton. -/
def ofAutomaton (a : Automaton) : Grammar :=
  a.states.toList.foldl (addState a) (new a.alphabet (a.display a.initial))

/-! ### To an automaton -/

/-- An automaton under construction, with the final state that terminals alone lead to. -/
structure Conversion where
  automaton : Automaton
  sink : Option Nat := none

namespace Conversion

/-- The base of the name of the final state that terminals alone lead to. -/
def sinkName : String := "F"

/-- Provides the final state that terminals alone lead to. -/
def withSink (b : Conversion) : Nat × Conversion :=
  match b.sink with
  | some q => (q, b)
  | none =>
    let name := unusedName b.automaton.names sinkName
    let q := b.automaton.handle name
    (q, ⟨(b.automaton.addState name).addFinal q, some q⟩)

/-- Adds a transition to a non-terminal, which becomes a declared state. -/
def addMove (b : Conversion) (source : Nat) (label : Label) (target : String) : Conversion :=
  { b with automaton :=
      (b.automaton.addState target).addTransition source label (b.automaton.handle target) }

/-- Adds a transition to the final state that terminals alone lead to. -/
def addLastMove (b : Conversion) (source : Nat) (c : Char) : Conversion :=
  let (q, b) := b.withSink
  { b with automaton := b.automaton.addTransition source (some c) q }

/-- Adds a production of a non-terminal, whose state is `source`. -/
def addProduction (g : Grammar) (name : String) (source : Nat) (b : Conversion)
    (production : String) : Except GrammarError Conversion :=
  if g.isDefined production then .ok (b.addMove source none production)
  else
    match production.toList with
    | [] => .ok { b with automaton := b.automaton.addFinal source }
    | c :: cs =>
      if g.terminals.contains c then
        let rest := String.ofList cs
        if cs.isEmpty then .ok (b.addLastMove source c)
        else if g.isDefined rest then .ok (b.addMove source (some c) rest)
        else .error (.undefinedNonTerminal rest)
      else .error (.notRightLinear name production)

/-- Adds the productions of a non-terminal, which must be a state by now. -/
def addProductions (g : Grammar) (b : Conversion) (entry : String × List String) :
    Except GrammarError Conversion :=
  match b.automaton.state? entry.1 with
  | none => .error (.undefinedNonTerminal entry.1)
  | some source => entry.2.foldlM (addProduction g entry.1 source) b

end Conversion

/-- The automaton of a grammar. Non-terminals are visited in the order of their names. -/
def toAutomaton (g : Grammar) : Except GrammarError Automaton := do
  let states := g.nonTerminals.foldl Automaton.addState (.new g.terminals g.start)
  let result ← g.productions.entries.foldlM (Conversion.addProductions g) { automaton := states }
  return result.automaton

end Grammar

end FiniteAutomata
