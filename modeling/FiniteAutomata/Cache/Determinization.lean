import FiniteAutomata.Automaton.Fingerprint
import FiniteAutomata.Log.Event
import FiniteAutomata.Subset.Determinization

/-!
# Cached determinization

The automaton stored under the fingerprint of a valid automaton is taken for its determinization,
whatever the limit. Otherwise the automaton is determinized and the result is stored. A cache that
cannot be read or written is reported, and changes nothing else.
-/
namespace FiniteAutomata

namespace Automaton

/-- What a determinization reports. Every composite state but the initial one is new at its time. -/
def determinizationEvents (a : Automaton) (limit : Nat) : List Event :=
  if a.problem?.isSome then []
  else if a.isDeterministic then [.alreadyDeterministic]
  else
    .determinizing a.size a.transitionCount ::
      match Construction.construct a limit with
      | .error k => k.result.names.tail.map .newComposite
      | .ok k =>
        k.result.names.tail.map .newComposite ++
          [.determinized k.result.size k.result.transitionCount]

end Automaton

/-- The outcome of a determinization that uses files. -/
structure CachedRun where
  result : Except AutomatonError Automaton
  files : FileTree
  events : List Event

namespace Automaton

/-- Determinizes an automaton without a cache. -/
def determinizeUncached (a : Automaton) (limit : Nat) (t : FileTree) : CachedRun where
  result := (a.determinize limit).map Determinized.automaton
  files := t
  events := a.determinizationEvents limit

/-- Determinizes an automaton and stores the result. -/
def determinizeAndSave (a : Automaton) (p : Path) (limit : Nat) (t : FileTree) : CachedRun :=
  match a.determinizeUncached limit t with
  | ⟨.error e, t, events⟩ => ⟨.error e, t, events⟩
  | ⟨.ok b, t, events⟩ =>
    match t.saveCached p a.fingerprint b with
    | (t, .ok ()) => ⟨.ok b, t, events ++ [.cacheSaved a.fingerprint p]⟩
    | (t, .error e) => ⟨.ok b, t, events ++ [.cacheNotSaved e]⟩

/-- Determinizes an automaton with a file as the cache. -/
def determinizeCached (a : Automaton) (p : Path) (limit : Nat) (t : FileTree) : CachedRun :=
  match a.problem? with
  | some e => ⟨.error e, t, []⟩
  | none =>
    match t.loadCached p a.fingerprint with
    | .ok (some b) => ⟨.ok b, t, [.cacheUsed a.fingerprint p]⟩
    | .ok none => a.determinizeAndSave p limit t
    | .error e =>
      let run := a.determinizeAndSave p limit t
      { run with events := .cacheNotLoaded e :: run.events }

end Automaton

end FiniteAutomata
