import SnippetConsole.Outcome
import SnippetConsole.Sheet

/-!
# The command line

The arguments are read from left to right and the first mistake, or the first
request for help, decides. A run needs the text of the source and perhaps of a
configuration; both are handed in, so that everything here is a function of what
was typed and read.
-/

namespace SnippetConsole.CommandLine

/-- The arguments of a run. -/
structure Arguments where
  source : Option String := none
  json : Bool := false
  latencyMs : Option Nat := none
  config : Option String := none
  showSkipped : Bool := false
  reference : Bool := false
  deriving DecidableEq, Repr

/-- What the arguments ask for. -/
inductive Request
  | help
  | run (arguments : Arguments)
  deriving DecidableEq, Repr

/-- What is printed, and the exit code. -/
structure Answer where
  code : Nat
  stdout : String := ""
  stderr : String := ""
  deriving DecidableEq, Repr

/-! ## Reading the arguments -/

/-- A wait in milliseconds: digits, perhaps after a plus sign, that fit
sixty-four bits. -/
def latency? (text : String) : Option Nat :=
  let ds := match text.toList with
    | '+' :: ds => ds
    | ds => ds
  let n := Decimal.natOfDigits ds
  if ds ≠ [] ∧ ds.all Char.isDigit ∧ n ≤ Json.greatestWord then some n else none

/-- The option takes a value, and this is one for it. -/
def Arguments.setOption? (a : Arguments) (name value : String) : Option Arguments :=
  match name with
  | "--latency-ms" =>
    if a.latencyMs.isSome then none
    else (latency? value).map fun n => { a with latencyMs := some n }
  | "--config" =>
    if a.config.isSome ∨ value = "" then none else some { a with config := some value }
  | _ => none

/-- The argument is a flag that was not given before. -/
def Arguments.setFlag? (a : Arguments) (name : String) : Option Arguments :=
  match name with
  | "--json" => if a.json then none else some { a with json := true }
  | "--show-skipped" => if a.showSkipped then none else some { a with showSkipped := true }
  | "--reference" => if a.reference then none else some { a with reference := true }
  | _ => none

/-- The one argument that is not an option. -/
def Arguments.setSource? (a : Arguments) (path : String) : Option Arguments :=
  if a.source.isSome ∨ path = "" then none else some { a with source := some path }

/-- The options that take a value. -/
def valueOptions : List String := ["--latency-ms", "--config"]

/-- The argument starts with a dash and is more than a dash. -/
def isOption (argument : String) : Bool :=
  match argument.toList with
  | '-' :: _ :: _ => true
  | _ => false

/-- A long option with its value after an equals sign. -/
def splitOption (argument : String) : String × Option String :=
  let cs := argument.toList
  match cs.dropWhile (· ≠ '=') with
  | [] => (argument, none)
  | _ :: value => (String.ofList (cs.takeWhile (· ≠ '=')), some (String.ofList value))

/-- Reads the arguments; there is no request if they are wrong. -/
def Arguments.read? (a : Arguments) : List String → Option Request
  | [] => some (.run a)
  | "--" :: paths => (paths.foldlM Arguments.setSource? a).map .run
  | "--help" :: _ => some .help
  | argument :: rest =>
    if argument.toList.take 2 = ['-', 'h'] then some .help
    else if !isOption argument then (a.setSource? argument).bind (·.read? rest)
    else
      match splitOption argument, rest with
      | (name, some value), rest => (a.setOption? name value).bind (·.read? rest)
      | (name, none), value :: others =>
        if name ∈ valueOptions then
          if isOption value then none else (a.setOption? name value).bind (·.read? others)
        else (a.setFlag? name).bind (·.read? (value :: others))
      | (name, none), [] => (a.setFlag? name).map .run

/-- What the arguments ask for. -/
def Request.ofArguments? (arguments : List String) : Option Request :=
  Arguments.read? {} arguments

/-- The text of the help. -/
def helpText : String :=
  "Print what a C# snippet would write to the console\n\n" ++
  "Usage: sharpsim [OPTIONS] [SOURCE]\n\n" ++
  "Arguments:\n" ++
  "  [SOURCE]  Source file to simulate (`-` reads stdin)\n\n" ++
  "Options:\n" ++
  "      --json            Print the full ExecutionResult as JSON\n" ++
  "      --latency-ms <N>  Simulated latency in milliseconds (overrides the config file)\n" ++
  "      --config <FILE>   SimulatorOptions as a JSON file\n" ++
  "      --show-skipped    List statements that were not simulated on stderr\n" ++
  "      --reference       Print the supported statement reference and exit\n" ++
  "  -h, --help            Print help\n"

/-! ## Preparing a run -/

/-- The path stands for the standard input: a dash, with or without slashes and
dots after it. -/
def isStandardInput (path : String) : Bool :=
  match path.toList with
  | '-' :: rest =>
    let parts := Text.cut (· == '/') rest
    parts.head? = some [] && parts.all fun part => part = [] || part = ['.']
  | _ => false

/-- Why a run was not started. -/
inductive Refusal
  | missingSource
  | unreadable (path : String)
  | invalidConfig (path : String)
  deriving DecidableEq, Repr

/-- The wording of a refusal. -/
def Refusal.message : Refusal → String
  | .missingSource => "no source file given (use `-` for stdin)"
  | .unreadable path => "failed to read " ++ path
  | .invalidConfig path => "invalid config " ++ path

/-- The options of a run: those of the configuration, but for a wait given among
the arguments. -/
def Arguments.options (a : Arguments) (config : Option String) : Except Refusal Options := do
  let options ← match a.config, config with
    | none, _ => .ok {}
    | some path, none => .error (.unreadable path)
    | some path, some text =>
      match Options.ofText? text with
      | some options => .ok options
      | none => .error (.invalidConfig path)
  return { options with latencyMs := a.latencyMs.getD options.latencyMs }

/-- The source and the options of a run, from the texts of the source and of the
configuration, if they could be read. -/
def Arguments.prepare (a : Arguments) (source config : Option String) :
    Except Refusal (String × Options) :=
  match a.source, source with
  | none, _ => .error .missingSource
  | some path, none => .error (.unreadable path)
  | some _, some text => (a.options config).map fun options => (text, options)

/-! ## Answers -/

/-- An error goes to the standard error, with exit code one. -/
def Answer.failure (message : String) : Answer where
  code := 1
  stderr := "error: " ++ message ++ "\n"

/-- The answer that shows the help. -/
def Answer.help : Answer where
  code := 0
  stdout := helpText

/-- The answer that shows the reference sheet. -/
def Answer.sheet : Answer where
  code := 0
  stdout := Sheet.text

/-- Lines for what a run skipped. -/
def skippedText (skipped : List Skipped) : String :=
  String.join (skipped.map fun s => "skipped " ++ s.shown ++ "\n")

/-- What is printed for a finished run. As JSON also a fault is an ordinary
answer. -/
def Arguments.finish (a : Arguments) (outcome : Outcome) (skipped : List Skipped) : Answer :=
  let listed := if a.showSkipped then skippedText skipped else ""
  if a.json then { code := 0, stdout := outcome.toJson.toLines ++ "\n", stderr := listed }
  else
    match outcome.error with
    | some message => { Answer.failure message with stderr := listed ++ "error: " ++ message ++ "\n" }
    | none => { code := 0, stdout := outcome.output ++ "\n", stderr := listed }

end SnippetConsole.CommandLine
