import SnippetConsole.CommandLine

/-!
# The program

Reads files, waits, takes the time and prints; everything else is decided by the
command line.
-/

namespace SnippetConsole.Program

open CommandLine

/-- The text of a file, if it can be read. -/
def readFile? (path : String) : IO (Option String) := do
  try
    return some (← IO.FS.readFile path)
  catch _ => return none

/-- The text of a source: a file, or the standard input. -/
def readSource? (path : String) : IO (Option String) := do
  if isStandardInput path then
    try
      return some (← (← IO.getStdin).readToEnd)
    catch _ => return none
  else readFile? path

/-- Waits for so many milliseconds, an hour at most at a time. -/
def wait (milliseconds : Nat) : IO Unit := do
  let hour := 3600000
  for _ in [0 : milliseconds / hour] do
    IO.sleep (UInt32.ofNat hour)
  IO.sleep (UInt32.ofNat (milliseconds % hour))

/-- Runs what the arguments ask for. -/
def answer (a : Arguments) : IO Answer := do
  if a.reference then return .sheet
  let source ← match a.source with
    | some path => readSource? path
    | none => pure none
  let config ← match a.config with
    | some path => readFile? path
    | none => pure none
  match a.prepare source config with
  | .error refusal => return .failure refusal.message
  | .ok (text, options) =>
    let start ← IO.monoNanosNow
    wait options.waitMs
    let report := run options.limits text
    let stop ← IO.monoNanosNow
    let timeMs := Outcome.milliseconds (stop - start)
    return a.finish (.ofRun timeMs report) (skippedOf report)

end SnippetConsole.Program

open SnippetConsole CommandLine in
/-- The command line program. Wrong arguments end with exit code two. -/
def main (arguments : List String) : IO UInt32 := do
  let answer ← match Request.ofArguments? arguments with
    | none => pure { code := 2, stderr := "error: wrong arguments; try --help\n" }
    | some .help => pure .help
    | some (.run a) => Program.answer a
  IO.eprint answer.stderr
  IO.print answer.stdout
  return UInt32.ofNat answer.code
