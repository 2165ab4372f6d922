import FiniteAutomata.Cache.Determinization
import FiniteAutomata.Cache.Location
import FiniteAutomata.CommandLine.Arguments
import FiniteAutomata.Description.Printer
import FiniteAutomata.Files.Load
import FiniteAutomata.Grammar.Duality

/-!
# Running a command

A run reads files, arguments and environment variables, and gives what is written to the standard
streams, the exit code and the files afterwards. Everything is decided here, without side effects.
-/
namespace FiniteAutomata

/-- Why a command fails. -/
inductive CommandError where
  | load (file : Path) (error : LoadError)
  | automaton (error : AutomatonError)
  /-- Options of a determinization that was not asked for. -/
  | unusedOptions
  deriving DecidableEq, Repr

namespace CommandError

def message : CommandError → String
  | load file _ => "unable to load `" ++ file.text ++ "`"
  | automaton e => e.message
  | unusedOptions => "`--max-states` and `--cache` require `--determinize`"

/-- The message of what caused the error. -/
def cause? : CommandError → Option String
  | load _ e => some e.message
  | automaton (.malformed v) => some v.message
  | _ => none

/-- The report of the error, with its cause. -/
def report (e : CommandError) : String :=
  "Error: " ++ e.message ++ "\n" ++
    match e.cause? with
    | none => ""
    | some cause => "\nCaused by:\n    " ++ indentLines cause ++ "\n"

end CommandError

/-- What a command has done. -/
structure CommandRun where
  /-- The text for the standard output, or the reason why there is none. -/
  result : Except CommandError String
  files : FileTree
  events : List Event := []

namespace Automaton

/-- Determinizes an automaton as the options say. -/
def determinizeWith (a : Automaton) (o : DeterminizeOptions) (t : FileTree) : CachedRun :=
  let limit := o.maxStates.getD defaultStateLimit
  match o.cache with
  | some p => a.determinizeCached p limit t
  | none => a.determinizeUncached limit t

/-- Determinizes an automaton as the options say and shows the result. -/
def showDeterminized (a : Automaton) (o : DeterminizeOptions) (view : Automaton → String)
    (t : FileTree) : CommandRun :=
  match a.determinizeWith o t with
  | ⟨.ok b, files, events⟩ => ⟨.ok (view b), files, events⟩
  | ⟨.error e, files, events⟩ => ⟨.error (.automaton e), files, events⟩

/-- Shows something of an automaton that is valid. -/
def showValid (a : Automaton) (view : Automaton → String) (t : FileTree) : CommandRun :=
  match a.problem? with
  | some e => ⟨.error (.automaton e), t, []⟩
  | none => ⟨.ok (view a), t, []⟩

/-- The text of the grammar of an automaton. -/
def grammarText (a : Automaton) : String := (Grammar.ofAutomaton a).text

/-- Whether an automaton is deterministic, in words. -/
def determinismText (a : Automaton) : String :=
  if a.isDeterministic then "deterministic\n" else "non deterministic\n"

/-- Whether an automaton accepts a word, in words. -/
def acceptanceText (a : Automaton) (word : String) : String :=
  word ++ (if a.accepts word.toList then ": accepted\n" else ": rejected\n")

end Automaton

namespace Command

/-- Loads an automaton and goes on with it. -/
def withAutomaton (file : Path) (t : FileTree) (next : Automaton → CommandRun) : CommandRun :=
  match t.loadAutomaton file with
  | .error e => ⟨.error (.load file e), t, []⟩
  | .ok a => next a

/-- Runs a command. -/
def run (c : Command) (t : FileTree) : CommandRun :=
  match c with
  | check file =>
    withAutomaton file t fun a => a.showValid Automaton.determinismText t
  | determinize file options =>
    withAutomaton file t fun a => a.showDeterminized options Automaton.description t
  | grammar file true options =>
    withAutomaton file t fun a => a.showDeterminized options Automaton.grammarText t
  | grammar file false options =>
    if options.isSet then ⟨.error .unusedOptions, t, []⟩
    else withAutomaton file t fun a => ⟨.ok a.grammarText, t, []⟩
  | accepts file words =>
    withAutomaton file t fun a =>
      a.showValid (fun a => String.join (words.map a.acceptanceText)) t

end Command

/-- What a run of the program leaves. -/
structure Outcome where
  code : UInt32
  output : String
  errors : String
  files : FileTree

/-- The filter of log events that the environment asks for. -/
def Environment.logFilter (env : Environment) : LogFilter :=
  .ofText (((env.get? "RUST_LOG").bind ofUtf8?).getD "")

/-- How the program is used. -/
def usageText : String :=
  "Commands:\n" ++
  "  check FILE\n" ++
  "  determinize [--max-states N] [--cache=PATH] FILE\n" ++
  "  grammar [-d|--determinize] [--max-states N] [--cache=PATH] FILE\n" ++
  "  accepts FILE [WORD]...\n" ++
  "  help\n"

/-- Runs the program: the outcome of the arguments in an environment with some files. -/
def runProgram (env : Environment) (t : FileTree) (args : List String) : Outcome :=
  let filter := env.logFilter
  let warnings := String.join (filter.warnings.map (· ++ "\n"))
  match Command.ofArguments args with
  | .error .help => ⟨0, usageText, warnings, t⟩
  | .error .usage => ⟨2, "", warnings ++ usageText, t⟩
  | .ok c =>
    let run := c.run t
    let shown := warnings ++ Event.shown filter run.events
    match run.result with
    | .ok text => ⟨0, text, shown, run.files⟩
    | .error e => ⟨1, "", shown ++ e.report, run.files⟩

end FiniteAutomata
