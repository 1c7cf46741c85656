import SnippetConsole.Statement.Basic
import SnippetConsole.Statement.Parts
import SnippetConsole.Value

/-!
# Recognizing statements

Each shape of statement has a recognizer that looks at a whole run of tokens.
The shapes are tried in a fixed order and the first that fits decides; the order
matters only where a declaration could also be read as the construction of an
array or an object.
-/

namespace SnippetConsole

/-- The type names that may start a declaration. -/
def declarationTypes : List String := ["int", "string", "double", "float", "bool", "var"]

/-- The methods of the console that print. -/
def consoleWriters : List String := ["WriteLine", "Write"]

namespace Shape

/-- A run as an expression: not empty, and balanced. -/
def expr? (line : String) (ts : List Token) : Option Expr :=
  if !ts.isEmpty && balanced ts then some (.of (sourceText line ts)) else none

/-- The items of an array list. One comma may follow the last item. -/
def items? (line : String) (ts : List Token) : Option (List Expr) :=
  if ts.isEmpty then some []
  else
    let parts := splitAtTop .comma ts
    let parts := if 1 < parts.length ∧ parts.getLast? = some [] then parts.dropLast else parts
    parts.mapM (expr? line)

/-! ## Printing -/

/-- A slot with a literal index. -/
def slot? : List Token → Option Statement
  | [⟨.word array, _⟩, ⟨.opening .square, _⟩, ⟨.number n, _⟩, ⟨.closing .square, _⟩] =>
    (index? n).map (.printSlot array)
  | _ => none

/-- What is printed: nothing, a slot, or an expression. -/
def argument? (line : String) (ts : List Token) : Option Statement :=
  if ts.isEmpty then some (.print none)
  else slot? ts <|> (expr? line ts).map fun e => .print (some e)

/-- `Console.WriteLine(...)` -/
def print? (line : String) : List Token → Option Statement
  | ⟨.word object, _⟩ :: ⟨.dot, _⟩ :: ⟨.word writer, _⟩ :: ⟨.opening .round, _⟩ :: ts =>
    if object = "Console" ∧ writer ∈ consoleWriters then (enclosed? ts).bind (argument? line)
    else none
  | _ => none

/-! ## Construction -/

/-- `new T[] { a, b }` -/
def newList? (line : String) : List Token → Option ArrayInit
  | ⟨.new, _⟩ :: ⟨.word _, _⟩ :: ⟨.opening .square, _⟩ :: ⟨.closing .square, _⟩ ::
      ⟨.opening .curly, _⟩ :: ts =>
    (enclosed? ts).bind fun inside => (items? line inside).map .items
  | _ => none

/-- `new T[n]` -/
def newSized? (line : String) : List Token → Option ArrayInit
  | ⟨.new, _⟩ :: ⟨.word _, _⟩ :: ⟨.opening .square, _⟩ :: ts =>
    (enclosed? ts).bind fun inside => (expr? line inside).map .sized
  | _ => none

/-- `{ a, b }` -/
def bareList? (line : String) : List Token → Option ArrayInit
  | ⟨.opening .curly, _⟩ :: ts =>
    (enclosed? ts).bind fun inside => (items? line inside).map .items
  | _ => none

/-- `int[] n = ...` or `var n = ...`; the list alone needs a declared type. -/
def makeArray? (line : String) : List Token → Option Statement
  | ⟨.word _, _⟩ :: ⟨.opening .square, _⟩ :: ⟨.closing .square, _⟩ :: ⟨.word name, _⟩ ::
      ⟨.equals, _⟩ :: value =>
    (newList? line value <|> newSized? line value <|> bareList? line value).map (.makeArray name)
  | ⟨.word type, _⟩ :: ⟨.word name, _⟩ :: ⟨.equals, _⟩ :: value =>
    if type = "var" then (newList? line value <|> newSized? line value).map (.makeArray name)
    else none
  | _ => none

/-- `Car c = new Car(...)`; the arguments are not looked at. -/
def construct? : List Token → Option Statement
  | ⟨.word _, _⟩ :: ⟨.word name, _⟩ :: ⟨.equals, _⟩ :: ⟨.new, _⟩ :: ⟨.word className, _⟩ ::
      ⟨.opening .round, _⟩ :: ts =>
    (enclosed? ts).map fun _ => .construct name className
  | _ => none

/-! ## Assignment -/

/-- The run starts with an opening brace. -/
def startsList : List Token → Bool
  | ⟨.opening .curly, _⟩ :: _ => true
  | _ => false

/-- `int x = expr`, one name only. -/
def declare? (line : String) : List Token → Option Statement
  | ⟨.word type, _⟩ :: ⟨.word name, _⟩ :: ⟨.equals, _⟩ :: value =>
    if type ∈ declarationTypes ∧ !startsList value ∧ (splitAtTop .comma value).length = 1 then
      (expr? line value).map (.declare name)
    else none
  | _ => none

/-- `c.color = expr` -/
def setField? (line : String) : List Token → Option Statement
  | ⟨.word object, _⟩ :: ⟨.dot, _⟩ :: ⟨.word field, _⟩ :: ⟨.equals, _⟩ :: value =>
    (expr? line value).map (.setField object field)
  | _ => none

/-- `n[i] = expr` -/
def setSlot? (line : String) : List Token → Option Statement
  | ⟨.word array, _⟩ :: ⟨.opening .square, _⟩ :: ts =>
    match bracketed? ts with
    | some (inside, ⟨.equals, _⟩ :: value) => do
      let index ← expr? line inside
      let expr ← expr? line value
      return .setSlot array index expr
    | _ => none
  | _ => none

/-- `x = expr`, which constructs nothing. -/
def assign? (line : String) : List Token → Option Statement
  | ⟨.word name, _⟩ :: ⟨.equals, _⟩ :: value =>
    if value.any (·.kind = .new) then none else (expr? line value).map (.assign name)
  | _ => none

/-- `x += expr` -/
def update? (line : String) : List Token → Option Statement
  | ⟨.word name, _⟩ :: ⟨.update op, _⟩ :: value => (expr? line value).map (.update name op)
  | _ => none

/-- `x++` or `++x` -/
def step? : List Token → Option Statement
  | [⟨.word name, _⟩, ⟨.step step, _⟩] => some (.step name step)
  | [⟨.step step, _⟩, ⟨.word name, _⟩] => some (.step name step)
  | _ => none

/-! ## Method calls -/

/-- `c.Run()`; the arguments are not looked at. -/
def call? : List Token → Option Statement
  | ⟨.word object, _⟩ :: ⟨.dot, _⟩ :: ⟨.word method, _⟩ :: ⟨.opening .round, _⟩ :: ts =>
    if object = "Console" then none else (enclosed? ts).map fun _ => .call object method
  | _ => none

/-! ## The order -/

/-- The recognizers for statements of a line, in the order in which they are tried. -/
def recognizers (line : String) : List (List Token → Option Statement) :=
  [print? line, makeArray? line, construct?, declare? line, setField? line, setSlot? line,
    assign? line, update? line, step?, call?]

end Shape

/-- The run without the semicolons it ends with. -/
def dropSemicolons (ts : List Token) : List Token :=
  Text.dropEndWhile (·.kind = .semicolon) ts

/-- The statement that a run of tokens of a line makes. -/
def classify (line : String) (ts : List Token) : Statement :=
  ((Shape.recognizers line).findSome? (· (dropSemicolons ts))).getD .unrecognized

end SnippetConsole
