import FiniteAutomata.Pattern.Fault
import FiniteAutomata.Text.Words

/-!
# Reports on patterns

A report shows the pattern with marks under the parts that are at fault, and then says what is
wrong. A pattern of one line is indented. The lines of a longer one are numbered and stand between
two rules, and a part that spans several of them is given by its lines and columns instead of marks.
-/
namespace FiniteAutomata.Pattern

/-- The marks under a line, from a column on, for the parts of it in the order of their starts. -/
def marks (column : Nat) : List Span → List Char
  | [] => []
  | s :: ss =>
    let gap := s.start.column - column
    let width := max 1 (s.stop.column - s.start.column)
    List.replicate gap ' ' ++ List.replicate width '^' ++ marks (column + gap + width) ss

/-- The line of marks under a line of the pattern, when it has some. -/
def markLine (indent : Nat) : List Span → List Char
  | [] => []
  | s :: ss => List.replicate indent ' ' ++ marks 1 (s :: ss) ++ ['\n']

/-- A line without the carriage return before its line feed. -/
def withoutReturn (line : List Char) : List Char :=
  if line.getLast? = some '\r' then line.dropLast else line

/-- The lines of a pattern that are shown: an empty one after the last line feed is not. -/
def shownLines (pattern : List Char) : List (List Char) :=
  let all := lines pattern
  all.dropLast.map withoutReturn ++ (all.getLast?.toList.filter (· ≠ []))

/-- A number, at least so many characters long. -/
def paddedNumber (width n : Nat) : List Char :=
  let digits := (toString n).toList
  List.replicate (width - digits.length) ' ' ++ digits

namespace FaultAt

/-- The parts of the pattern that the report points at. -/
def spans (e : FaultAt) : List Span :=
  match e.earlier with
  | none => [e.span]
  | some s => e.span.inOrder s

/-- The parts on a line. -/
def spansOn (e : FaultAt) (line : Nat) : List Span :=
  e.spans.filter fun s => s.isOnOneLine && s.start.line == line

/-- The lines of a pattern, each after its heading and above its marks. -/
def markedLines (e : FaultAt) (heading : Nat → List Char) (pattern : List Char) : List Char :=
  (shownLines pattern).zipIdx.flatMap fun (line, i) =>
    let head := heading (i + 1)
    head ++ line ++ '\n' :: markLine head.length (e.spansOn (i + 1))

/-- The places of a part that spans several lines. -/
def extentLine (s : Span) : String :=
  "on line " ++ toString s.start.line ++ " (column " ++ toString s.start.column ++
    ") through line " ++ toString s.stop.line ++ " (column " ++ toString (s.stop.column - 1) ++
    ")\n"

/-- The report on a fault of a pattern. -/
def report (e : FaultAt) (pattern : List Char) : String :=
  let conclusion := "error: " ++ e.fault.message
  if '\n' ∈ pattern then
    let width := (toString (lines pattern).length).length
    let rule := String.ofList (List.replicate 79 '~') ++ "\n"
    let heading := fun n => paddedNumber width n ++ [':', ' ']
    let extents := (e.spans.filter (!·.isOnOneLine)).map extentLine
    "regex parse error:\n" ++ rule ++ String.ofList (e.markedLines heading pattern) ++ rule ++
      String.join extents ++ conclusion
  else
    "regex parse error:\n" ++
      String.ofList (e.markedLines (fun _ => List.replicate 4 ' ') pattern) ++ conclusion

end FaultAt

end FiniteAutomata.Pattern
