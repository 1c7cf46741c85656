import SnippetConsole.Json.Basic

/-!
# Writing JSON

The compact form has no blanks. The indented form puts every item on a line of
its own, two blanks further in than the brackets around it.
-/

namespace SnippetConsole.Json

/-- A raw text in quotes. -/
def inQuotes (raw : String) : List Char := '"' :: raw.toList ++ ['"']

mutual

/-- A tree without blanks. -/
def compact : Json → List Char
  | .null => ['n', 'u', 'l', 'l']
  | .bool true => ['t', 'r', 'u', 'e']
  | .bool false => ['f', 'a', 'l', 's', 'e']
  | .number text => text.toList
  | .string raw => inQuotes raw
  | .array [] => ['[', ']']
  | .array (first :: rest) => '[' :: compact first ++ compactItems rest ++ [']']
  | .object [] => ['\x7b', '\x7d']
  | .object ((name, first) :: rest) =>
    '\x7b' :: inQuotes name ++ ':' :: compact first ++ compactMembers rest ++ ['\x7d']

/-- Items, each after a comma. -/
def compactItems : List Json → List Char
  | [] => []
  | item :: rest => ',' :: compact item ++ compactItems rest

/-- Members, each after a comma. -/
def compactMembers : List (String × Json) → List Char
  | [] => []
  | (name, item) :: rest => ',' :: inQuotes name ++ ':' :: compact item ++ compactMembers rest

end

/-- A new line, indented. -/
def newLine (depth : Nat) : List Char := '\n' :: List.replicate (2 * depth) ' '

mutual

/-- A tree over several lines, with its brackets at the given depth. -/
def indented (depth : Nat) : Json → List Char
  | .array (first :: rest) =>
    '[' :: newLine (depth + 1) ++ indented (depth + 1) first ++ indentedItems (depth + 1) rest ++
      newLine depth ++ [']']
  | .object ((name, first) :: rest) =>
    '\x7b' :: newLine (depth + 1) ++ inQuotes name ++ [':', ' '] ++ indented (depth + 1) first ++
      indentedMembers (depth + 1) rest ++ newLine depth ++ ['\x7d']
  | json => compact json

/-- Items, each after a comma and on a new line. -/
def indentedItems (depth : Nat) : List Json → List Char
  | [] => []
  | item :: rest =>
    ',' :: newLine depth ++ indented depth item ++ indentedItems depth rest

/-- Members, each after a comma and on a new line. -/
def indentedMembers (depth : Nat) : List (String × Json) → List Char
  | [] => []
  | (name, item) :: rest =>
    ',' :: newLine depth ++ inQuotes name ++ [':', ' '] ++ indented depth item ++
      indentedMembers depth rest

end

/-- The compact text of a tree. -/
def toText (json : Json) : String := String.ofList json.compact

/-- The indented text of a tree. -/
def toLines (json : Json) : String := String.ofList (json.indented 0)

end SnippetConsole.Json
