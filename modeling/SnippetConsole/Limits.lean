/-!
# Limits

Three limits bound a run, and exceeding one is the only way a run can fail.
Names that do not exist, indices out of range and expressions without a value
are not faults.
-/

namespace SnippetConsole

/-- How much a run may do. -/
structure Limits where
  statements : Nat := 10000
  outputLines : Nat := 10000
  arrayLength : Nat := 100000
  deriving DecidableEq, Repr

/-- Why a run was stopped. -/
inductive Fault
  | statementLimit (limit : Nat)
  | outputLimit (limit : Nat)
  | arrayTooLarge (length limit : Nat)
  deriving DecidableEq, Repr

/-- The wording of a fault. -/
def Fault.message : Fault → String
  | .statementLimit limit => s!"statement limit of {limit} exceeded"
  | .outputLimit limit => s!"output limit of {limit} lines exceeded"
  | .arrayTooLarge length limit => s!"array of length {length} exceeds the limit of {limit}"

end SnippetConsole
