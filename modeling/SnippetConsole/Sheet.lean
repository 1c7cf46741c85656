import SnippetConsole.Statement.Shape
import SnippetConsole.Store.Object

/-!
# The reference sheet

A page that lists every statement and expression of the supported subset. The
type names, the printing methods and the methods of objects come from the tables
that the recognizers and the objects themselves use.
-/

namespace SnippetConsole

namespace Sheet

def preamble : List String :=
  ["sharpsim: simulated console output for C#-style teaching snippets.",
   "Nothing is compiled. Each line is matched against the shapes below; other",
   "lines are skipped silently. Several statements may share a line.",
   ""]

def printing : List String :=
  ["PRINTING:"] ++ consoleWriters.map (fun writer => "  Console." ++ writer ++ "(expr)") ++
  ["  Console.WriteLine()                    // blank line",
   "  Console.WriteLine(arr[0])              // unset slot prints null",
   ""]

def declarations : List String :=
  ["DECLARATIONS: " ++ ", ".intercalate declarationTypes,
   "  int x = expr;",
   ""]

def assignments : List String :=
  ["ASSIGNMENT:",
   "  x = expr;                               // only if x was declared",
   "  x += expr;  x -= expr;  x *= expr;  x /= expr;",
   "  x++;  x--;  ++x;  --x;",
   "  str += expr;                            // appends",
   "",
   "OBJECTS:",
   "  Car c = new Car(args);                  // args ignored; var allowed",
   "  c.field = expr;",
   "",
   "ARRAYS:",
   "  int[] n = new int[3];",
   "  int[] n = new int[] \x7b 1, 2 \x7d;",
   "  int[] n = \x7b 1, 2 \x7d;",
   "  n[i] = expr;                            // index may be an expression",
   ""]

/-- What the methods of objects print. -/
def effects : List (String × String) :=
  [("Run", "prints \"<label> is running.\""),
   ("Shoot", "prints \"<label> is shooting.\""),
   ("Speak", "prints the `sound` field, else \"<label> speaks.\"")]

def methods : List String :=
  ["CANNED METHODS (label = `name` field, else class name):"] ++
  Object.methods.map (fun (method, _) =>
    "  obj." ++ method ++ "()  " ++ (effects.lookup method).getD "") ++
  [""]

def expressions : List String :=
  ["EXPRESSIONS (first rule that applies):",
   "  \"text\"  'c'  true  false               // escapes are not processed",
   "  $\"Hi \x7bname\x7d \x7bobj.field\x7d \x7barr[0]\x7d\"       // unresolved \x7b..\x7d kept as written",
   "  name  obj.field  arr[i]",
   "  + - * / ( )  over numbers               // floating point, no truncation",
   "  a + b                                   // concatenates unless both numbers",
   "  anything else prints its own source text",
   "",
   "IGNORED: using, namespace, class and method headers, braces, comments.",
   "NOT SIMULATED: loops, branches, method bodies, casts, % and comparisons."]

/-- The lines of the sheet. -/
def lines : List String :=
  preamble ++ printing ++ declarations ++ assignments ++ methods ++ expressions

/-- The sheet as one text; every line ends in a newline. -/
def text : String := String.join (lines.map (· ++ "\n"))

end Sheet

/-- The version of the program. -/
def version : String := "0.1.0"

end SnippetConsole
