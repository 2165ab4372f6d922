import FiniteAutomata.CommandLine.Run

/-!
# The program

Takes a picture of the files that the arguments name, runs the command on it, and carries out what
changed.
-/
namespace FiniteAutomata.Program

/-- The text of a path to a place. -/
def placeText (l : Place) : String :=
  match l with
  | "/" :: cs => "/" ++ "/".intercalate cs
  | [] => "."
  | cs => "/".intercalate cs

/-- Records what is at a place. -/
def observe (t : FileTree) (l : Place) : IO FileTree := do
  let path := (← IO.currentDir) / placeText l
  if l.isBase then return t
  if ← path.isDir then return t.put l .directory
  if ← path.pathExists then
    try
      return t.put l (.file (← IO.FS.readBinFile path).toList)
    catch _ => return t
  return t

/-- Records what is at the places that a path passes. -/
def observePath (t : FileTree) (p : Path) : IO FileTree := do
  let mut t := t
  let mut l := p.base
  for c in p.components do
    l := l.enter c
    t ← observe t l
  return t

/-- The paths that a command uses. -/
def pathsOf : Command → List Path
  | .check file | .accepts file _ => [file]
  | .determinize file options | .grammar file _ options => file :: options.cache.toList

/-- Carries out what differs between two pictures. -/
def commit (before after : FileTree) : IO Unit := do
  for (l, n) in after.nodes.entries do
    if before.node? l ≠ some n then
      let path := (← IO.currentDir) / placeText l
      match n with
      | .directory => IO.FS.createDirAll path
      | .file content => IO.FS.writeBinFile path ⟨content.toArray⟩

/-- The environment variables that the program looks at. -/
def environment : IO Environment := do
  let mut found := []
  for name in "RUST_LOG" :: Environment.cacheVariables do
    if let some value ← IO.getEnv name then
      found := found ++ [(name, utf8Bytes value)]
  return ⟨found⟩

/-- Runs the program with some arguments. -/
def run (args : List String) : IO UInt32 := do
  let mut files : FileTree := ∅
  if let .ok c := Command.ofArguments args then
    for p in pathsOf c do
      files ← observePath files p
  let outcome := runProgram (← environment) files args
  commit files outcome.files
  (← IO.getStderr).putStr outcome.errors
  (← IO.getStdout).putStr outcome.output
  return outcome.code

end FiniteAutomata.Program

/-- Runs the program. -/
def main (args : List String) : IO UInt32 := FiniteAutomata.Program.run args
