import SnippetConsole.Text.Blank
import SnippetConsole.Text.Slice

/-!
# The lines of a source text

A source is cut at every newline, so it has one line more than it has
newlines. Lines are numbered from one; their text is trimmed. A single line is
looked up by the bytes at which lines start.

A line number has thirty-two bits, and so has the number of the last line, up to
which a source is gone through. A source with fewer lines than there are numbers is
gone through to its end.

* `rawLines_append` — joining two sources by a newline joins their lines.
* `lines_eq` — all lines, if they can be numbered.
-/

namespace SnippetConsole.Text

/-- One line of a source, trimmed. -/
structure Line where
  number : Nat
  text : String
  deriving DecidableEq, Repr

/-- The lines of a source as they stand between its newlines. -/
def rawLines (source : String) : List (List Char) := cut (· == '\n') source.toList

theorem rawLines_append (a b : String) : rawLines (a ++ "\n" ++ b) = rawLines a ++ rawLines b := by
  have h : (a ++ "\n" ++ b).toList = a.toList ++ '\n' :: b.toList := by simp
  rw [rawLines, h, cut_append (by rfl)]
  rfl

/-- The number of lines of a source. -/
def lineCount (source : String) : Nat := (rawLines source).length

theorem lineCount_append (a b : String) :
    lineCount (a ++ "\n" ++ b) = lineCount a + lineCount b := by
  rw [lineCount, rawLines_append, List.length_append, lineCount, lineCount]

/-- The bytes behind the newlines of a text that starts at byte `start`. -/
def startsBehind (start : Nat) : List Char → List Nat
  | [] => []
  | c :: cs =>
    let next := start + c.utf8Size
    if c = '\n' then next :: startsBehind next cs else startsBehind next cs

/-- The bytes at which the lines of a source start. -/
def lineStarts (source : String) : List Nat := 0 :: startsBehind 0 source.toList

/-- The text of line `n`, counted from one, without the carriage returns at its end: it
goes from its start to the newline in front of the next start, or to the end of the
source. -/
def line? (source : String) : Nat → Option String
  | 0 => none
  | n + 1 => do
    let start ← (lineStarts source)[n]?
    let stop := ((lineStarts source)[n + 1]?.map (· - 1)).getD (byteCount source.toList)
    let piece ← slice? start stop source.toList
    return String.ofList (dropEndWhile (· == '\r') piece)

/-- Trimmed lines, numbered from `first`. -/
def numbered (first : Nat) (raw : List (List Char)) : List Line :=
  (raw.zipIdx first).map fun (cs, n) => ⟨n, String.ofList (trimChars cs)⟩

/-- How many line numbers there are. -/
def numberCount : Nat := 0x100000000

/-- The lines of a source up to the number of the last one. That number is cut to the bits
of a line number, so a source with as many lines as there are numbers shows none of them. -/
def lines (source : String) : List Line :=
  numbered 1 ((rawLines source).take (lineCount source % numberCount))

/-- A source whose lines can be numbered shows them all. -/
theorem lines_eq {source : String} (h : lineCount source < numberCount) :
    lines source = numbered 1 (rawLines source) := by
  rw [lines, Nat.mod_eq_of_lt h, lineCount, List.take_length]

theorem numbered_append (first : Nat) (a b : List (List Char)) :
    numbered first (a ++ b) = numbered first a ++ numbered (first + a.length) b := by
  simp [numbered, List.zipIdx_append]

end SnippetConsole.Text
