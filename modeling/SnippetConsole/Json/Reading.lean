import SnippetConsole.Json.Number
import SnippetConsole.Json.Quoted

/-!
# Reading JSON

A text is one value with blanks around it. Readers that may nest get a room, the
number of values, items and closing brackets they may still read; the length of
the text is always enough.
-/

namespace SnippetConsole.Json

/-- The text without the blanks at its start. -/
def skipBlanks (cs : List Char) : List Char := cs.dropWhile isBlank

/-- Items after commas, up to the closing bracket. -/
def moreItems {α : Type} (item : Reader α) (close : Char) : (room : Nat) → Reader (List α)
  | 0, _ => none
  | room + 1, cs =>
    match skipBlanks cs with
    | [] => none
    | c :: cs =>
      if c = close then some ([], cs)
      else if c = ',' then do
        let (first, cs) ← item cs
        let (rest, cs) ← moreItems item close room cs
        return (first :: rest, cs)
      else none

/-- Items between commas, after the opening bracket. -/
def items {α : Type} (item : Reader α) (close : Char) (room : Nat) : Reader (List α) := fun cs =>
  match skipBlanks cs with
  | [] => none
  | c :: rest =>
    if c = close then some ([], rest)
    else do
      let (first, cs) ← item cs
      let (others, cs) ← moreItems item close room cs
      return (first :: others, cs)

/-- A name in quotes, a colon and a value. -/
def namedItem (value : Reader Json) : Reader (String × Json) := fun cs =>
  match skipBlanks cs with
  | '"' :: cs => do
    let (name, cs) ← raw cs
    match skipBlanks cs with
    | ':' :: cs => do
      let (value, cs) ← value cs
      return ((String.ofList name, value), cs)
    | _ => none
  | _ => none

/-- A number, kept as it is written. -/
def numberText : Reader Json := fun cs => do
  let (_, rest) ← numeral? cs
  return (.number (String.ofList (cs.take (cs.length - rest.length))), rest)

/-- A value, with blanks before it. -/
def value : (room : Nat) → Reader Json
  | 0, _ => none
  | room + 1, cs =>
    match skipBlanks cs with
    | 'n' :: 'u' :: 'l' :: 'l' :: rest => some (.null, rest)
    | 't' :: 'r' :: 'u' :: 'e' :: rest => some (.bool true, rest)
    | 'f' :: 'a' :: 'l' :: 's' :: 'e' :: rest => some (.bool false, rest)
    | '"' :: rest => (raw rest).map fun (text, rest) => (.string (String.ofList text), rest)
    | '[' :: rest =>
      (items (value room) ']' rest.length rest).map fun (xs, rest) => (.array xs, rest)
    | '\x7b' :: rest =>
      (items (namedItem (value room)) '\x7d' rest.length rest).map fun (xs, rest) =>
        (.object xs, rest)
    | cs => numberText cs

/-- The value that makes up a whole text. -/
def ofText? (text : String) : Option Json :=
  let cs := text.toList
  match value (cs.length + 1) cs with
  | some (json, rest) => if skipBlanks rest = [] then some json else none
  | none => none

end SnippetConsole.Json
