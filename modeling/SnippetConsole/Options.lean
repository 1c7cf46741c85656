import SnippetConsole.Json.Record
import SnippetConsole.Json.Reading
import SnippetConsole.Limits

/-!
# Options

What a caller may choose for a run: how long to wait before it, as an online
compiler would, and its limits. Options are read from JSON; whatever is left out
keeps its default.
-/

namespace SnippetConsole

/-- The options of a run. -/
structure Options where
  latencyMs : Nat := 500
  limits : Limits := {}
  deriving DecidableEq, Repr

namespace Options

/-- Default options without a wait. -/
def immediate : Options := { latencyMs := 0 }

/-- The wait asked for, in nanoseconds. -/
def latencyNanos (options : Options) : Nat := options.latencyMs * 1000000

/-- The longest wait, in milliseconds: thirty years of 365 days. -/
def longestWaitMs : Nat := 30 * 365 * 24 * 60 * 60 * 1000

/-- The wait before a run, in milliseconds. Whoever asks for more than the longest
wait gets the longest one. -/
def waitMs (options : Options) : Nat := min options.latencyMs longestWaitMs

/-- The wait before a run, in nanoseconds. -/
def waitNanos (options : Options) : Nat := options.waitMs * 1000000

end Options

/-- Limits by name, or in the order statements, lines, slots. -/
def Limits.ofJson? (json : Json) : Option Limits := do
  let fields ← json.fields? ["max_statements", "max_output_lines", "max_array_len"]
  let default : Limits := {}
  let statements ← fields.withDefault? "max_statements" Json.natural? default.statements
  let outputLines ← fields.withDefault? "max_output_lines" Json.natural? default.outputLines
  let arrayLength ← fields.withDefault? "max_array_len" Json.natural? default.arrayLength
  return { statements, outputLines, arrayLength }

/-- Options by name, or in the order wait, limits. -/
def Options.ofJson? (json : Json) : Option Options := do
  let fields ← json.fields? ["latency_ms", "limits"]
  let default : Options := {}
  let latencyMs ← fields.withDefault? "latency_ms" Json.natural? default.latencyMs
  let limits ← fields.withDefault? "limits" Limits.ofJson? default.limits
  return { latencyMs, limits }

/-- Options from JSON text. -/
def Options.ofText? (text : String) : Option Options := (Json.ofText? text).bind Options.ofJson?

end SnippetConsole
