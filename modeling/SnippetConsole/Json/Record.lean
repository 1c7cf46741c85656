import SnippetConsole.Json.Number
import SnippetConsole.Json.Quoted

/-!
# Reading records from JSON

A record is an object whose members are found by name, or an array of its fields
in order. Unknown members are ignored, whatever they hold; a known one must not
appear twice, and an array must not be longer than the record.
-/

namespace SnippetConsole.Json

def bool? : Json → Option Bool
  | .bool b => some b
  | _ => none

/-- A number of sixty-four bits, written with digits alone. -/
def natural? : Json → Option Nat
  | .number text => (Numeral.ofText? text).bind Numeral.natural?
  | _ => none

/-- Nothing for `null`, or else what the reader says. -/
def nullable? {α : Type} (read? : Json → Option α) : Json → Option (Option α)
  | .null => some none
  | json => (read? json).map some

/-- The fields that are present, by name. -/
abbrev Fields := List (String × Json)

/-- The fields of a record with the given names. -/
def fields? (names : List String) : Json → Option Fields
  | .object members => do
    let members ← members.mapM fun (raw, json) =>
      (unescape? raw.toList).map fun name => (String.ofList name, json)
    let known := members.filter (·.1 ∈ names)
    if (known.map Prod.fst).Nodup then some known else none
  | .array items => if items.length ≤ names.length then some (names.zip items) else none
  | _ => none

/-- A field that has to be present. -/
def Fields.required? {α : Type} (fields : Fields) (name : String) (read? : Json → Option α) :
    Option α :=
  (fields.lookup name).bind read?

/-- A field with a default in case it is absent; when present it has to be right. -/
def Fields.withDefault? {α : Type} (fields : Fields) (name : String) (read? : Json → Option α)
    (default : α) : Option α :=
  match fields.lookup name with
  | none => some default
  | some json => read? json

end SnippetConsole.Json
