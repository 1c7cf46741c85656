/-!
# Arithmetic trees

The four operators on doubles and the trees built from them. Division never
fails: it follows IEEE 754, so a division by zero is an infinity or a NaN.
-/

namespace SnippetConsole

/-- The arithmetic operators. -/
inductive Operator
  | add
  | sub
  | mul
  | div
  deriving DecidableEq, Repr

namespace Operator

/-- The value of the operator on two doubles. -/
def apply : Operator → Float → Float → Float
  | .add, a, b => a + b
  | .sub, a, b => a - b
  | .mul, a, b => a * b
  | .div, a, b => a / b

/-- The character that writes the operator. -/
def sign : Operator → Char
  | .add => '+'
  | .sub => '-'
  | .mul => '*'
  | .div => '/'

end Operator

/-- An arithmetic expression without references. -/
inductive Tree
  | number (value : Float)
  | neg (inner : Tree)
  | binary (op : Operator) (left right : Tree)
  deriving DecidableEq, Repr

/-- The value of a tree. -/
def Tree.eval : Tree → Float
  | .number value => value
  | .neg inner => -inner.eval
  | .binary op left right => op.apply left.eval right.eval

end SnippetConsole
