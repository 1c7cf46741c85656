import SnippetConsole.Json.Library
import SnippetConsole.Value

/-!
# Values in JSON

A value is written as the JSON number, truth value or string that it is, with
nothing around it to tell them apart. It is read as the first of the three that
the JSON fits.
-/

namespace SnippetConsole.Value

section

variable (lib : Json.Library)

/-- The JSON form of a value. -/
def tree : Value → Json
  | .number x => lib.ofFloat x
  | .truth b => .bool b
  | .text s => lib.ofString s

/-- The forms of a value, in the order in which they are tried. -/
def forms : List (Json → Option Value) :=
  [fun json => (lib.float? json).map .number, fun json => json.bool?.map .truth,
   fun json => (lib.string? json).map .text]

/-- The value that a JSON number, truth value or string stands for. -/
def ofTree? (json : Json) : Option Value := lib.firstOf? (forms lib) json

/-- A value from JSON text. -/
def read? (text : String) : Option Value := (lib.tree? text).bind (ofTree? lib)

end

/-- The JSON form of a value, as it is written here. -/
def toJson : Value → Json := tree .own

/-- A value from JSON text, as it is read here. -/
def ofText? : String → Option Value := read? .own

end SnippetConsole.Value
