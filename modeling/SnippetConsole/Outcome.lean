import SnippetConsole.Json.Library
import SnippetConsole.Options
import SnippetConsole.Run.Basic

/-!
# Outcomes

What a caller gets back from a run: whether it went through, its output or the
fault that stopped it, and the time it took. An outcome has a JSON form, which
leaves out the error of a run without a fault.
-/

namespace SnippetConsole

/-- The outcome of a run, with its time in milliseconds. -/
structure Outcome where
  success : Bool
  output : String
  error : Option String
  timeMs : Float
  deriving DecidableEq, Repr

namespace Outcome

/-- The outcome of a finished run. A fault discards what was printed before it. -/
def ofRun (timeMs : Float) : Except Fault Report → Outcome
  | .ok report => ⟨true, report.output, none, timeMs⟩
  | .error fault => ⟨false, "", some fault.message, timeMs⟩

/-- Milliseconds from nanoseconds, by way of seconds. -/
def milliseconds (nanos : Nat) : Float :=
  (Float.ofNat (nanos / 1000000000) + Float.ofNat (nanos % 1000000000) / 1e9) * 1e3

/-! ## JSON -/

/-- The names of the fields, in the order in which they are written. -/
def fieldNames : List String := ["success", "output", "error", "executionTimeMs"]

section

variable (lib : Json.Library)

/-- The members of an outcome. -/
def tree (o : Outcome) : Json :=
  .object <|
    [("success", .bool o.success), ("output", lib.ofString o.output)] ++
    (match o.error with
      | some e => [("error", lib.ofString e)]
      | none => []) ++
    [("executionTimeMs", lib.ofFloat o.timeMs)]

/-- An outcome from its members; the error may be left out or be `null`. -/
def ofTree? (json : Json) : Option Outcome := do
  let fields ← lib.fields? fieldNames json
  let success ← fields.required? "success" Json.bool?
  let output ← fields.required? "output" lib.string?
  let error ← fields.withDefault? "error" (Json.nullable? lib.string?) none
  let timeMs ← fields.required? "executionTimeMs" lib.float?
  return { success, output, error, timeMs }

/-- An outcome from JSON text. -/
def read? (text : String) : Option Outcome := (lib.tree? text).bind (ofTree? lib)

end

/-- The JSON form of an outcome, as it is written here. -/
def toJson : Outcome → Json := tree .own

/-- An outcome from JSON text, as it is read here. -/
def ofText? : String → Option Outcome := read? .own

end Outcome

/-- Runs a source under the limits of the options, in a given time. -/
def execute (options : Options) (source : String) (timeMs : Float) : Outcome :=
  .ofRun timeMs (run options.limits source)

/-- What a run skipped; a run that was stopped reports nothing. -/
def skippedOf : Except Fault Report → List Skipped
  | .ok report => report.skipped
  | .error _ => []

end SnippetConsole
