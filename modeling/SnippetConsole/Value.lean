import SnippetConsole.Decimal.Layout

/-!
# Values

The values that names, fields and slots hold. Whole and fractional numbers are
all doubles; the console shows a whole one without a point.
-/

namespace SnippetConsole

/-- A number, a truth value or a text. -/
inductive Value
  | number (value : Float)
  | truth (value : Bool)
  | text (value : String)
  deriving DecidableEq, Repr

/-- The greatest number that can be an index. -/
def greatestIndex : Nat := 0xFFFFFFFF

/-- The index that a double stands for: a natural number that is not too large. -/
def index? (x : Float) : Option Nat :=
  (Decimal.Double.ofFloat x).natural?.filter (· ≤ greatestIndex)

namespace Value

/-- How the console shows numbers: zero has no sign, and the numbers that are not
finite have their long names. -/
def layout : Decimal.Layout where
  tie := .up
  wholePoint := false
  signedZero := false
  positional := none
  positiveInfinity := "Infinity"
  negativeInfinity := "-Infinity"
  notANumber := "NaN"

/-- The text that the console shows for a value. -/
def shown : Value → String
  | .number x => layout.write x
  | .truth true => "true"
  | .truth false => "false"
  | .text s => s

/-- The number, if the value is one. -/
def number? : Value → Option Float
  | .number x => some x
  | _ => none

/-- The index, if the value is a number that stands for one. -/
def index? (v : Value) : Option Nat := v.number?.bind SnippetConsole.index?

/-- Two numbers add up; any other two values join their texts. -/
def plus : Value → Value → Value
  | .number a, .number b => .number (a + b)
  | a, b => .text (a.shown ++ b.shown)

end Value

end SnippetConsole
