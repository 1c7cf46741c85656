import SnippetConsole.Machine
import SnippetConsole.Run.Noise
import SnippetConsole.Statement.Shape
import SnippetConsole.Text.Lines

/-!
# Running a source text

A run goes through the lines of a source in order. A line that cannot be read,
and a statement that is not recognized, are skipped and reported; the first
fault ends the run.

* `runLines_append` — running lines one after the other composes.
-/

namespace SnippetConsole

/-- A statement, or a whole line, that was not executed. -/
structure Skipped where
  line : Nat
  text : String
  deriving DecidableEq, Repr

/-- How a skipped statement is shown. -/
def Skipped.shown (s : Skipped) : String := s!"line {s.line}: {s.text}"

/-- The state of a run between two lines. -/
structure Progress where
  machine : Machine
  skipped : Array Skipped := #[]

namespace Progress

/-- The run with one more skipped text. -/
def skip (p : Progress) (line : Nat) (text : String) : Progress :=
  { p with skipped := p.skipped.push ⟨line, text⟩ }

/-- Executes a statement of a line, or skips it if it is not recognized. -/
def runStatement (line : Text.Line) (p : Progress) (ts : List Token) : Except Fault Progress :=
  let statement := classify line.text ts
  if statement.recognized then
    match p.machine.execute statement with
    | (machine, none) => .ok { p with machine }
    | (_, some fault) => .error fault
  else .ok (p.skip line.number (sourceText line.text ts))

/-- Runs one line. -/
def runLine (p : Progress) (line : Text.Line) : Except Fault Progress :=
  if isNoise line.text then .ok p
  else
    match lex line.text with
    | .error _ => .ok (p.skip line.number line.text)
    | .ok ts => (statementRuns ts).foldlM (runStatement line) p

/-- Runs lines in order, up to the first fault. -/
def runLines (p : Progress) (lines : List Text.Line) : Except Fault Progress :=
  lines.foldlM runLine p

theorem runLines_append (p : Progress) (a b : List Text.Line) :
    p.runLines (a ++ b) = (p.runLines a).bind (·.runLines b) := by
  simp only [runLines, List.foldlM_append]
  rfl

end Progress

/-- What a run did. -/
structure Report where
  lines : List String
  skipped : List Skipped
  statements : Nat
  deriving DecidableEq, Repr

/-- The printed lines as one text. -/
def Report.output (r : Report) : String := Console.render r.lines

/-- What a run has done so far. -/
def Progress.report (p : Progress) : Report where
  lines := p.machine.console.lines.toList
  skipped := p.skipped.toList
  statements := p.machine.executed

/-- Runs a source under limits. -/
def run (limits : Limits) (source : String) : Except Fault Report :=
  (Progress.runLines { machine := .new limits } (Text.lines source)).map Progress.report

/-- The output of a source under the default limits. -/
def simulate (source : String) : Except Fault String := (run {} source).map Report.output

end SnippetConsole
