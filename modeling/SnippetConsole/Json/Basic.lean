/-!
# JSON trees

A tree keeps its numbers and strings as they are written. Whether a number fits
a double or a string denotes characters is decided only when it is used, so an
unused member may hold anything that JSON allows.
-/

namespace SnippetConsole

/-- A JSON value. A string is the text between its quotes, escapes untouched. -/
inductive Json
  | null
  | bool (value : Bool)
  | number (text : String)
  | string (raw : String)
  | array (items : List Json)
  | object (members : List (String × Json))

namespace Json

/-- Blanks between the tokens of JSON. -/
def isBlank (c : Char) : Bool := c = ' ' || c = '\n' || c = '\t' || c = '\r'

/-- A JSON reader takes a value off the front of a text. -/
abbrev Reader (α : Type) := List Char → Option (α × List Char)

end Json

end SnippetConsole
