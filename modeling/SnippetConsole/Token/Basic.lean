import SnippetConsole.Arith.Tree
import SnippetConsole.Decimal.Layout
import SnippetConsole.Text.Span

/-!
# Tokens

A token is a kind and the span it was read from. Kinds carry what the rest of
the program looks at: the value of a number, the raw text between quotes, the
name of a word. A character with no meaning in the supported subset becomes a
token of its own, so that the statement around it can be read and passed over.
-/

namespace SnippetConsole

/-- The shapes of bracket. -/
inductive Bracket
  | round
  | square
  | curly
  deriving DecidableEq, Repr

/-- What a literal in quotes is. -/
inductive Quote
  | string
  | interpolated
  | character
  deriving DecidableEq, Repr

/-- The two ways to step a number by one. -/
inductive Step
  | up
  | down
  deriving DecidableEq, Repr

/-- What a token is. -/
inductive Kind
  | number (value : Float)
  /-- The text between the quotes as written, escapes untouched. -/
  | quoted (quote : Quote) (raw : String)
  | truth (value : Bool)
  | word (name : String)
  | new
  | dot
  | comma
  | semicolon
  | opening (bracket : Bracket)
  | closing (bracket : Bracket)
  | equals
  | doubleEquals
  | arrow
  | operator (op : Operator)
  /-- An operator joined to an equals sign, as in `+=`. -/
  | update (op : Operator)
  /-- A doubled sign, as in `++`. -/
  | step (step : Step)
  | other (char : Char)
  deriving DecidableEq, Repr

/-- A kind and where it stands in its line. -/
structure Token where
  kind : Kind
  span : Text.Span
  deriving DecidableEq, Repr

/-! ## Spelling -/

def Bracket.opener : Bracket → Char
  | .round => '('
  | .square => '['
  | .curly => '{'

def Bracket.closer : Bracket → Char
  | .round => ')'
  | .square => ']'
  | .curly => '}'

/-- What stands before the text of a literal. -/
def Quote.opener : Quote → List Char
  | .string => ['"']
  | .interpolated => ['$', '"']
  | .character => ['\'']

/-- The character that ends a literal. -/
def Quote.mark : Quote → Char
  | .string => '"'
  | .interpolated => '"'
  | .character => '\''

def Step.sign : Step → Char
  | .up => '+'
  | .down => '-'

/-- The value that a step adds. -/
def Step.delta : Step → Float
  | .up => 1.0
  | .down => -1.0

namespace Kind

/-- A kind is shown as it is written; a number by its value alone. -/
def shown : Kind → String
  | .number value => Decimal.plain.write value
  | .quoted quote raw => String.ofList (quote.opener ++ raw.toList ++ [quote.mark])
  | .truth true => "true"
  | .truth false => "false"
  | .word name => name
  | .new => "new"
  | .dot => "."
  | .comma => ","
  | .semicolon => ";"
  | .opening b => String.singleton b.opener
  | .closing b => String.singleton b.closer
  | .equals => "="
  | .doubleEquals => "=="
  | .arrow => "=>"
  | .operator op => String.singleton op.sign
  | .update op => String.ofList [op.sign, '=']
  | .step s => String.ofList [s.sign, s.sign]
  | .other c => String.singleton c

/-- The words with a meaning of their own. -/
def keywords : List (String × Kind) :=
  [("new", .new), ("true", .truth true), ("false", .truth false)]

/-- A word is a keyword or a name. -/
def ofWord (word : String) : Kind := (keywords.lookup word).getD (.word word)

/-- Words that are not names. -/
def isKeyword : Kind → Bool
  | .new => true
  | .truth _ => true
  | _ => false

/-- The name, if the kind is one. -/
def name? : Kind → Option String
  | .word name => some name
  | _ => none

end Kind

end SnippetConsole
