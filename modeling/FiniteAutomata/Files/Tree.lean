import FiniteAutomata.Collection.Table
import FiniteAutomata.Files.Path
import FiniteAutomata.Text.Utf8

/-!
# Files and directories

A file tree tells what is at each place: a directory, a file with its content, or nothing. Following
a path passes through directories only. Main statement: writing a file changes no other place
(`FileTree.node?_write_of_ne`).
-/
namespace FiniteAutomata

/-- Why a file cannot be used. -/
inductive FileError where
  | noEntry
  | notDirectory
  | isDirectory
  | alreadyExists
  /-- The content is not valid UTF-8. -/
  | invalidText
  deriving DecidableEq, Repr

def FileError.message : FileError → String
  | .noEntry => "No such file or directory (os error 2)"
  | .notDirectory => "Not a directory (os error 20)"
  | .isDirectory => "Is a directory (os error 21)"
  | .alreadyExists => "File exists (os error 17)"
  | .invalidText => "stream did not contain valid UTF-8"

/-- What is at a place. -/
inductive Node where
  | directory
  | file (content : List UInt8)
  deriving DecidableEq, Repr

/-- What is at each place below the working directory and below the top of all files. -/
structure FileTree where
  nodes : Table Place Node

namespace FileTree

/-- The working directory without files. -/
def empty : FileTree := ⟨∅⟩

instance : EmptyCollection FileTree := ⟨empty⟩
instance : Inhabited FileTree := ⟨empty⟩

/-- What is at a place. -/
def node? (t : FileTree) (l : Place) : Option Node :=
  if l.isBase then some .directory else t.nodes.get? l

/-- Puts something at a place. -/
def put (t : FileTree) (l : Place) (n : Node) : FileTree := ⟨t.nodes.insert l n⟩

/-- Follows components from a place. What they lead to need not exist. -/
def follow (t : FileTree) : Place → List String → Except FileError Place
  | l, [] => .ok l
  | l, c :: cs =>
    match t.node? l with
    | some .directory => t.follow (l.enter c) cs
    | some (.file _) => .error .notDirectory
    | none => .error .noEntry

/-- The place that a path leads to. -/
def locate (t : FileTree) (p : Path) : Except FileError Place := t.follow p.base p.components

/-- What a path leads to. -/
def find (t : FileTree) (p : Path) : Except FileError Node := do
  match t.node? (← t.locate p) with
  | none => throw .noEntry
  | some .directory => return .directory
  | some (.file content) => if p.endsInSlash then throw .notDirectory else return .file content

/-- The content of a file. -/
def read (t : FileTree) (p : Path) : Except FileError (List UInt8) := do
  match ← t.find p with
  | .directory => throw .isDirectory
  | .file content => return content

/-- The content of a file of text. -/
def readText (t : FileTree) (p : Path) : Except FileError String := do
  match ofUtf8? (← t.read p) with
  | some text => return text
  | none => throw .invalidText

/-- Writes a file, new or not, into a directory that exists. -/
def write (t : FileTree) (p : Path) (content : List UInt8) : Except FileError FileTree := do
  let l ← t.locate p
  if t.node? l = some .directory ∨ p.endsInSlash then throw .isDirectory
  return t.put l (.file content)

/-- Removes a file. -/
def remove (t : FileTree) (p : Path) : Except FileError FileTree := do
  let _ ← t.read p
  return ⟨t.nodes.erase (← t.locate p)⟩

/-! ### Directories -/

/-- Whether components lead from a place to a directory. -/
def isDirectory (t : FileTree) (l : Place) (cs : List String) : Bool :=
  match t.follow l cs with
  | .ok m => t.node? m == some .directory
  | .error _ => false

/-- Makes a directory in one that exists. -/
def makeDirectory (t : FileTree) (l : Place) (cs : List String) : Except FileError FileTree := do
  let m ← t.follow l cs
  if (t.node? m).isSome then throw .alreadyExists
  return t.put m .directory

/--
Makes the directory that components, the last one first, lead to from a place, with those that it
lies in where they are missing. Gives what has been made even when it fails.
-/
def makeDirectoriesUp (t : FileTree) (l : Place) : List String → FileTree × Except FileError Unit
  | [] => (t, .ok ())
  | c :: cs =>
    let path := (c :: cs).reverse
    match t.makeDirectory l path with
    | .ok t => (t, .ok ())
    | .error .noEntry =>
      match t.makeDirectoriesUp l cs with
      | (t, .error e) => (t, .error e)
      | (t, .ok ()) =>
        match t.makeDirectory l path with
        | .ok t => (t, .ok ())
        | .error e => (t, if t.isDirectory l path then .ok () else .error e)
    | .error e => (t, if t.isDirectory l path then .ok () else .error e)

/-- Makes the directory that holds what a path names, with those that it lies in. -/
def makeParent (t : FileTree) (p : Path) : FileTree × Except FileError Unit :=
  t.makeDirectoriesUp p.base p.parent.reverse

/-! ### What stays -/

theorem node?_put_of_ne (t : FileTree) {l m : Place} (h : m ≠ l) (n : Node) :
    (t.put l n).node? m = t.node? m := by
  unfold node? put
  split
  · rfl
  · exact Table.get?_insert_of_ne _ h n

/-- Writing a file changes no other place. -/
theorem node?_write_of_ne {t u : FileTree} {p : Path} {content : List UInt8} {l m : Place}
    (hl : t.locate p = .ok l) (h : t.write p content = .ok u) (hm : m ≠ l) :
    u.node? m = t.node? m := by
  simp only [write, hl, bind, Except.bind] at h
  split at h
  · cases h
  · obtain rfl := Except.ok.inj h
    exact node?_put_of_ne t hm _

end FileTree

end FiniteAutomata
