import FiniteAutomata.Files.Path

/-!
# Command-line arguments

The first argument names a command; the others are options and, in any order with them, a file and
for one command some words. After two dashes all arguments are taken as they are. An option is given
at most once. Asking for help ends the reading, unless there was an error before.
-/
namespace FiniteAutomata

/-- How to determinize. -/
structure DeterminizeOptions where
  /-- The limit on the number of states. -/
  maxStates : Option Nat := none
  /-- The file used as a cache. -/
  cache : Option Path := none
  deriving DecidableEq, Repr

/-- Whether an option is given. -/
def DeterminizeOptions.isSet (o : DeterminizeOptions) : Bool := o.maxStates.isSome || o.cache.isSome

/-- What is asked for. -/
inductive Command where
  | check (file : Path)
  | determinize (file : Path) (options : DeterminizeOptions)
  | grammar (file : Path) (determinize : Bool) (options : DeterminizeOptions)
  | accepts (file : Path) (words : List String)
  deriving DecidableEq, Repr

/-- Why arguments name no command to run. -/
inductive Refusal where
  | usage
  | help
  deriving DecidableEq, Repr

/-- The names of the commands. -/
inductive Verb where
  | check
  | determinize
  | grammar
  | accepts
  deriving DecidableEq, Repr

namespace Verb

/-- The spelling of a name. -/
def text : Verb → String
  | check => "check"
  | determinize => "determinize"
  | grammar => "grammar"
  | accepts => "accepts"

/-- All names. -/
def all : List Verb := [check, determinize, grammar, accepts]

/-- The name that a text spells. -/
def ofText? (s : String) : Option Verb := all.find? (·.text == s)

/-- Whether the command takes the options of a determinization. -/
def takesOptions : Verb → Bool
  | determinize | grammar => true
  | _ => false

/-- Whether the command may be asked to determinize. -/
def takesDeterminize (v : Verb) : Bool := v == .grammar

/-- Whether the command takes words after the file. -/
def takesWords (v : Verb) : Bool := v == .accepts

end Verb

/-- The arguments of a command read so far. -/
structure Arguments where
  file : Option Path := none
  words : List String := []
  determinize : Bool := false
  options : DeterminizeOptions := {}
  deriving DecidableEq, Repr

/-- A number of at most 64 bits: decimal digits, which a plus sign may precede. -/
def parseCount? (cs : List Char) : Option Nat :=
  let digits := match cs with
    | '+' :: ds => ds
    | _ => cs
  if digits.isEmpty || !digits.all Char.isDigit then none
  else
    let n := digits.foldl (fun n c => 10 * n + (c.toNat - 48)) 0
    if n < UInt64.size then some n else none

namespace Arguments

/-- Takes an argument that is not an option: the file, which is not empty, and then words. -/
def addPositional (v : Verb) (a : Arguments) (text : String) : Except Refusal Arguments :=
  match a.file with
  | none => if text.isEmpty then .error .usage else .ok { a with file := some ⟨text⟩ }
  | some _ =>
    if v.takesWords then .ok { a with words := a.words ++ [text] } else .error .usage

/-- Asks to determinize. -/
def addDeterminize (v : Verb) (a : Arguments) : Except Refusal Arguments :=
  if v.takesDeterminize && !a.determinize then .ok { a with determinize := true }
  else .error .usage

/-- Sets the limit on the number of states. -/
def addMaxStates (v : Verb) (a : Arguments) (value : List Char) : Except Refusal Arguments :=
  match v.takesOptions, a.options.maxStates, parseCount? value with
  | true, none, some n => .ok { a with options := { a.options with maxStates := some n } }
  | _, _, _ => .error .usage

/-- Sets the file used as a cache. -/
def addCache (v : Verb) (a : Arguments) (value : List Char) : Except Refusal Arguments :=
  match v.takesOptions, a.options.cache, value with
  | true, none, _ :: _ =>
    .ok { a with options := { a.options with cache := some ⟨String.ofList value⟩ } }
  | _, _, _ => .error .usage

/-- Takes the letters of an argument that starts with one dash. -/
def addLetters (v : Verb) : Arguments → List Char → Except Refusal Arguments
  | a, [] => .ok a
  | a, c :: cs =>
    if c = 'h' then .error .help
    else if c = 'd' then
      match a.addDeterminize v with
      | .ok a => addLetters v a cs
      | .error e => .error e
    else .error .usage

/-- The name of an option, and its value after an equals sign. -/
def splitOption (cs : List Char) : String × Option (List Char) :=
  (String.ofList (cs.takeWhile (· ≠ '=')),
    match cs.dropWhile (· ≠ '=') with
    | _ :: value => some value
    | [] => none)

/-- Takes the arguments after the name of a command. -/
def read (v : Verb) : Arguments → List String → Except Refusal Arguments
  | a, [] => .ok a
  | a, text :: rest =>
    match text.toList with
    | ['-', '-'] => rest.foldlM (addPositional v) a
    | '-' :: '-' :: option =>
      match splitOption option with
      | ("help", none) => .error .help
      | ("determinize", none) =>
        match a.addDeterminize v with
        | .ok a => read v a rest
        | .error e => .error e
      | ("max-states", some value) =>
        match a.addMaxStates v value with
        | .ok a => read v a rest
        | .error e => .error e
      | ("max-states", none) =>
        match rest with
        | value :: rest =>
          match value.toList with
          | '-' :: _ => .error .usage
          | value =>
            match a.addMaxStates v value with
            | .ok a => read v a rest
            | .error e => .error e
        | [] => .error .usage
      | ("cache", some value) =>
        match a.addCache v value with
        | .ok a => read v a rest
        | .error e => .error e
      | _ => .error .usage
    | '-' :: c :: cs =>
      match a.addLetters v (c :: cs) with
      | .ok a => read v a rest
      | .error e => .error e
    | _ =>
      match a.addPositional v text with
      | .ok a => read v a rest
      | .error e => .error e

/-- The command that the arguments of a name make. -/
def command (v : Verb) (a : Arguments) : Except Refusal Command :=
  match a.file with
  | none => .error .usage
  | some file =>
    .ok <| match v with
      | .check => .check file
      | .determinize => .determinize file a.options
      | .grammar => .grammar file a.determinize a.options
      | .accepts => .accepts file a.words

end Arguments

/-- The topics on which help is given by name. -/
def helpTopics : List String := "help" :: Verb.all.map Verb.text

/-- Help by name is given on everything, or on one topic. -/
def helpRefusal : List String → Refusal
  | [] => .help
  | [topic] => if topic ∈ helpTopics then .help else .usage
  | _ => .usage

/-- What the arguments ask for. -/
def Command.ofArguments (args : List String) : Except Refusal Command :=
  match args with
  | [] => .error .usage
  | name :: rest =>
    match Verb.ofText? name with
    | some v => do (← Arguments.read v {} rest).command v
    | none =>
      if name == "help" then .error (helpRefusal rest)
      else if name == "--help" then .error .help
      else
        match name.toList with
        | '-' :: 'h' :: _ => .error .help
        | _ => .error .usage

end FiniteAutomata
