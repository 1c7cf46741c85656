import SnippetConsole.Arith.Tree
import SnippetConsole.Text.Blank
import SnippetConsole.Token.Basic

/-!
# Statements

A statement keeps only what its effect needs. Right-hand sides are kept as
source text and read again each time they are evaluated, since an expression
that cannot be evaluated stands for its own text.
-/

namespace SnippetConsole

/-- The source text of a right-hand side, without blanks at its ends. -/
structure Expr where
  text : String
  deriving DecidableEq, Repr

/-- The expression written as `text`. -/
def Expr.of (text : String) : Expr := ⟨Text.trim text⟩

/-- How a new array gets its slots. -/
inductive ArrayInit
  /-- As many unset slots as the expression says. -/
  | sized (size : Expr)
  /-- One slot for each item. -/
  | items (items : List Expr)
  deriving DecidableEq, Repr

/-- The statements of the supported subset. -/
inductive Statement
  /-- `Console.WriteLine(expr)`, without an expression for an empty line. -/
  | print (expr : Option Expr)
  /-- `Console.WriteLine(array[2])` -/
  | printSlot (array : String) (index : Nat)
  /-- `int x = expr` -/
  | declare (name : String) (expr : Expr)
  /-- `x = expr` -/
  | assign (name : String) (expr : Expr)
  /-- `x += expr` -/
  | update (name : String) (op : Operator) (expr : Expr)
  /-- `x++` -/
  | step (name : String) (step : Step)
  /-- `Car c = new Car(...)` -/
  | construct (name className : String)
  /-- `c.color = expr` -/
  | setField (object field : String) (expr : Expr)
  /-- `c.Run()` -/
  | call (object method : String)
  /-- `int[] n = new int[3]` -/
  | makeArray (name : String) (init : ArrayInit)
  /-- `n[i] = expr` -/
  | setSlot (array : String) (index expr : Expr)
  /-- Anything else; it has no effect. -/
  | unrecognized
  deriving DecidableEq, Repr

/-- The statement has one of the supported shapes. -/
def Statement.recognized : Statement → Bool
  | .unrecognized => false
  | _ => true

end SnippetConsole
