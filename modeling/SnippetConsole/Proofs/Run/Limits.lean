import SnippetConsole.Proofs.Machine.Limits
import SnippetConsole.Proofs.Run.Program

/-!
# Runs and their limits

A run that goes through has kept to its limits, and so has a list of statements
that goes on after its faults. Limits only end runs: what a run does before that is
the same under all limits.

* `limits_hold` — what the limits say of every list of statements and every run.
* `run_eq_ok_iff_fits` — a run goes through under smaller limits exactly when what
  it does fits them.
-/

namespace SnippetConsole

/-- Limits are compared one by one. -/
instance : LE Limits where
  le a b := a.statements ≤ b.statements ∧ a.outputLines ≤ b.outputLines ∧
    a.arrayLength ≤ b.arrayLength

instance (a b : Limits) : Decidable (a ≤ b) :=
  inferInstanceAs (Decidable (_ ∧ _ ∧ _))

/-- The arrays that the run of a source builds. -/
def arraysBuilt (limits : Limits) (source : String) : List Slots :=
  (Machine.new limits).arraysBuilt (program source)

variable {limits : Limits} {source : String} {report : Report}

/-! ## What goes through has kept to the limits -/

theorem statements_le_of_run (h : run limits source = .ok report) :
    report.statements ≤ limits.statements := by
  obtain ⟨m, hm, rfl⟩ := run_eq_ok_iff.1 h
  exact Machine.executed_le_of_executeAll (Nat.zero_le _) hm

theorem lines_le_of_run (h : run limits source = .ok report) :
    report.lines.length ≤ limits.outputLines := by
  obtain ⟨m, hm, rfl⟩ := run_eq_ok_iff.1 h
  obtain rfl := Machine.executeEach_of_executeAll hm
  have := (Machine.withinLimits_executeEach (Machine.withinLimits_new limits)
    (program source)).lines
  rwa [Machine.limits_executeEach] at this

/-- What limits say of statements on a new machine, which goes on after its faults: all of
them are counted, the console and the arrays keep to the limits, and a fault of the next
statement says which limit is in its way. -/
structure LimitsKept (limits : Limits) (ss : List Statement) : Prop where
  executed : ((Machine.new limits).executeEach ss).executed = ss.length
  lines : ((Machine.new limits).executeEach ss).console.lines.size ≤ limits.outputLines
  arrays : ∀ name a, ((Machine.new limits).executeEach ss).store.array? name = some a →
    a.size ≤ limits.arrayLength
  fault : ∀ s, Machine.FaultFits limits ss.length
    ((Machine.new limits).executeEach (ss ++ [s])).console.lines.size
    (((Machine.new limits).executeEach ss).execute s).2

theorem limitsKept (limits : Limits) (ss : List Statement) : LimitsKept limits ss := by
  have hlimits : ((Machine.new limits).executeEach ss).limits = limits :=
    Machine.limits_executeEach _ ss
  have hexecuted : ((Machine.new limits).executeEach ss).executed = ss.length := by
    rw [Machine.executed_executeEach]
    exact Nat.zero_add _
  have hwithin := Machine.withinLimits_executeEach (Machine.withinLimits_new limits) ss
  have hlines := hwithin.lines
  have harrays := hwithin.arrays
  rw [hlimits] at hlines harrays
  refine ⟨hexecuted, hlines, harrays, fun s => ?_⟩
  have hfits := (((Machine.new limits).executeEach ss).step_execute s).faultFits hwithin
  rw [hlimits, hexecuted] at hfits
  rw [Machine.executeEach_concat]
  exact hfits

/-- Every list of statements keeps to the limits, and so a run that goes through has counted
and printed no more than it may. -/
theorem limits_hold (limits : Limits) :
    (∀ ss, LimitsKept limits ss) ∧
      ∀ source report, run limits source = .ok report →
        report.statements ≤ limits.statements ∧ report.lines.length ≤ limits.outputLines :=
  ⟨limitsKept limits, fun _ _ h => ⟨statements_le_of_run h, lines_le_of_run h⟩⟩

/-- The second line does not fit a console of one; a run with one line does. -/
theorem limits_hold_line :
    ((((Machine.new ⟨2, 1, 1⟩).executeEach [.print none]).execute (.print none)).2 =
        some (.outputLimit 1) ∧
      ((Machine.new ⟨2, 1, 1⟩).executeEach ([.print none] ++ [.print none])).console.lines.size
        = 1) ∧
      run ⟨2, 1, 1⟩ "Console.WriteLine();" = .ok ⟨[""], [], 1⟩ ∧ 1 ≤ 2 ∧ [""].length ≤ 1 := by
  have hfault : (((Machine.new ⟨2, 1, 1⟩).executeEach [.print none]).execute
      (.print none)).2 = some (.outputLimit 1) := by decide +kernel
  have hrun : run ⟨2, 1, 1⟩ "Console.WriteLine();" = .ok ⟨[""], [], 1⟩ := by decide +kernel
  obtain ⟨hkept, hruns⟩ := limits_hold ⟨2, 1, 1⟩
  exact ⟨⟨hfault, (((hkept [.print none]).fault (.print none)).outputLines 1 hfault).2⟩, hrun,
    hruns _ _ hrun⟩

/-! ## Limits only end runs -/

/-- A run that goes through does the same under all limits that what it does fits. -/
theorem run_of_fits {other : Limits} (h : run limits source = .ok report)
    (hstatements : report.statements ≤ other.statements)
    (hlines : report.lines.length ≤ other.outputLines)
    (harrays : ∀ a ∈ arraysBuilt limits source, a.size ≤ other.arrayLength) :
    run other source = .ok report ∧ arraysBuilt other source = arraysBuilt limits source := by
  obtain ⟨m, hm, rfl⟩ := run_eq_ok_iff.1 h
  obtain ⟨hrun, hbuilt⟩ := Machine.executeAll_withLimits hm hstatements hlines harrays
  exact ⟨run_eq_ok_iff.2 ⟨_, hrun, rfl⟩, hbuilt⟩

/-- A run goes through under smaller limits exactly when it goes through under larger
ones and what it does there fits the smaller ones; it then reports the same. -/
theorem run_eq_ok_iff_fits {limits larger : Limits} (hle : limits ≤ larger) (source : String)
    (report : Report) :
    run limits source = .ok report ↔
      run larger source = .ok report ∧ report.statements ≤ limits.statements ∧
        report.lines.length ≤ limits.outputLines ∧
          ∀ a ∈ arraysBuilt larger source, a.size ≤ limits.arrayLength := by
  constructor
  · intro h
    have hstatements := statements_le_of_run h
    have hlines := lines_le_of_run h
    have harrays : ∀ a ∈ arraysBuilt limits source, a.size ≤ limits.arrayLength :=
      fun a => Machine.size_le_of_mem_arraysBuilt
    obtain ⟨hrun, hbuilt⟩ := run_of_fits h (Nat.le_trans hstatements hle.1)
      (Nat.le_trans hlines hle.2.1) fun a ha => Nat.le_trans (harrays a ha) hle.2.2
    exact ⟨hrun, hstatements, hlines, hbuilt ▸ harrays⟩
  · rintro ⟨h, hstatements, hlines, harrays⟩
    exact (run_of_fits h hstatements hlines harrays).1

/-- An array of two slots and one line, under limits that allow no more. -/
theorem run_eq_ok_iff_fits_array :
    (⟨2, 1, 2⟩ : Limits) ≤ {} ∧
      run ⟨2, 1, 2⟩ "string[] n = \x7b \"a\", \"b\" \x7d;\nConsole.WriteLine(n[1]);" =
        .ok ⟨["b"], [], 2⟩ :=
  ⟨by decide, (@run_eq_ok_iff_fits ⟨2, 1, 2⟩ {} (by decide) _ _).2 (by decide +kernel)⟩

end SnippetConsole
