import SnippetConsole.Limits

/-!
# The console

The lines printed so far, and how many there may be. A line is only ever added
at the end.
-/

namespace SnippetConsole

/-- Printed lines and the greatest number of them. -/
structure Console where
  lines : Array String := #[]
  capacity : Nat
  deriving DecidableEq, Repr

namespace Console

/-- The console with one more line, if it has room. -/
def push (console : Console) (line : String) : Except Fault Console :=
  if console.lines.size < console.capacity then
    .ok { console with lines := console.lines.push line }
  else .error (.outputLimit console.capacity)

/-- What is shown for a run that printed nothing. -/
def emptyText : String := "// Code executed successfully (no output)"

/-- Printed lines as one text. -/
def render (lines : List String) : String :=
  if lines.isEmpty then emptyText else "\n".intercalate lines

end Console

end SnippetConsole
