import SnippetConsole.Text.Blank

/-!
# Lines without statements

Blank lines, comments, lone braces, imports, namespaces, and the headers of
classes and methods are passed over in silence. They are told by the characters
and words of the line, before it is read as tokens.
-/

namespace SnippetConsole

namespace Noise

/-- Words that may stand before the word `class`. -/
def modifiers : List String :=
  ["public", "private", "protected", "internal", "static", "abstract", "sealed", "partial"]

/-- Words that may start the header of a method. -/
def headerStarts : List String := ["public", "private", "protected", "internal", "static"]

/-- The line starts a comment, or goes on with one. -/
def isComment : List Char → Bool
  | '/' :: '/' :: _ => true
  | '/' :: '*' :: _ => true
  | '*' :: _ => true
  | _ => false

/-- Braces that may stand alone on a line. -/
def braces : List (List Char) := [['\x7b'], ['\x7d'], ['\x7d', ';']]

/-- Modifiers, then the word `class`. -/
def isClassHeader (words : List String) : Bool :=
  words.find? (· ∉ modifiers) == some "class"

/-- A word that starts a method, a round bracket somewhere, and no equals sign. -/
def isMethodHeader (first : String) (line : List Char) : Bool :=
  first ∈ headerStarts && line.contains '(' && !line.contains '='

end Noise

/-- The line holds no statement. -/
def isNoise (line : String) : Bool :=
  let cs := line.toList
  let words := Text.words line
  let first := words.headD ""
  cs.isEmpty || Noise.isComment cs || cs ∈ Noise.braces || first ∈ ["using", "namespace"] ||
    Noise.isClassHeader words || Noise.isMethodHeader first cs

end SnippetConsole
