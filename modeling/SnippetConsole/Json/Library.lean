import SnippetConsole.Json.Reading
import SnippetConsole.Json.Record
import SnippetConsole.Json.Writing

/-!
# JSON libraries

What outcomes and values, which only declare their fields and their forms, leave to others:
the texts of trees, numbers and strings, and the reading of records and choices. They are
written and read through a `Library`, whichever it is; `own` is the one that runs here.
-/

namespace SnippetConsole.Json

/-- What a library for JSON does. -/
structure Library where
  /-- The text of a tree. -/
  compact : Json → String
  /-- The text of a tree over several lines. -/
  indented : Json → String
  /-- The tree of a text. -/
  tree? : String → Option Json
  /-- The text of a double. -/
  number : Float → String
  /-- The double that a number stands for. -/
  double? : String → Option Float
  /-- A text as it stands between quotes. -/
  escaped : String → String
  /-- The text that stands between quotes. -/
  text? : String → Option String
  /-- The fields of a record that are present, by their names. -/
  fields? : List String → Json → Option Fields
  /-- What a tree stands for in the first of several forms that it has. -/
  firstOf? : {α : Type} → List (Json → Option α) → Json → Option α

namespace Library

/-- The readers and writers of this project. -/
def own : Library where
  compact := toText
  indented := toLines
  tree? := ofText?
  number := layout.write
  double? text := (Numeral.ofText? text).bind Numeral.float?
  escaped text := String.ofList (escape text.toList)
  text? raw := (unescape? raw.toList).map String.ofList
  fields? := Json.fields?
  firstOf? forms json := forms.findSome? (· json)

variable (lib : Library)

/-- A text as a JSON string. -/
def ofString (text : String) : Json := .string (lib.escaped text)

/-- A double as a JSON number. -/
def ofFloat (x : Float) : Json := .number (lib.number x)

/-- The text that a string denotes. -/
def string? : Json → Option String
  | .string raw => lib.text? raw
  | _ => none

/-- A number in the range of the doubles. -/
def float? : Json → Option Float
  | .number text => lib.double? text
  | _ => none

end Library

end SnippetConsole.Json
