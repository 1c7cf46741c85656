import SnippetConsole.Text.Blank
import SnippetConsole.Token.Nesting

/-!
# The statements of a line

A line holds the statements between its semicolons. Braces that open or close a
block around statements belong to none of them; a brace that closes the list of
an array does, and it is told apart by the semicolon before the block's brace.
-/

namespace SnippetConsole

/-- A curly bracket, opening or closing. -/
def Token.isBrace (t : Token) : Bool :=
  t.kind = .opening .curly || t.kind = .closing .curly

/-- The run without the braces it starts with. -/
def dropBraces (ts : List Token) : List Token := ts.dropWhile Token.isBrace

/-- The run without the braces it ends with, if a semicolon stands before them. -/
def dropBlockEnd (ts : List Token) : List Token :=
  let body := Text.dropEndWhile Token.isBrace ts
  match body.getLast? with
  | some t => if t.kind = .semicolon then body else ts
  | none => ts

/-- The statements of a line, as runs of its tokens; none is empty. -/
def statementRuns (ts : List Token) : List (List Token) :=
  ((splitAtTop .semicolon (dropBlockEnd (dropBraces ts))).map dropBraces).filter (!·.isEmpty)

/-- The source text of a run of tokens. -/
def sourceText (line : String) (ts : List Token) : String :=
  match ts.head?, ts.getLast? with
  | some first, some last => (first.span.merge last.span).slice line
  | _, _ => ""

end SnippetConsole
