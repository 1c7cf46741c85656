import SnippetConsole.Proofs.Machine.Execution
import SnippetConsole.Run.Basic

/-!
# The statements of a source

Which statements a source holds, and which of its texts are skipped, is settled
before the run: no statement changes how a later line is read. So a run is the
execution of one list of statements, up to the first fault.

* `program_of_holds` — the program of lines that hold one statement each.
* `Progress.runLines_eq` — lines execute their statements and skip their texts.
* `run_eq` — a run executes the statements of its source.
-/

namespace SnippetConsole

/-! ## What a line holds -/

/-- The recognized statements of a line. -/
def Text.Line.statements (line : Line) : List Statement :=
  if isNoise line.text then []
  else
    match lex line.text with
    | .error _ => []
    | .ok ts => ((statementRuns ts).map (classify line.text)).filter Statement.recognized

/-- The texts of a line that are skipped: those of statements that are not
recognized, or the whole line if it cannot be read. -/
def Text.Line.skipped (line : Line) : List Skipped :=
  if isNoise line.text then []
  else
    match lex line.text with
    | .error _ => [⟨line.number, line.text⟩]
    | .ok ts =>
      ((statementRuns ts).filter fun run => !(classify line.text run).recognized).map
        fun run => ⟨line.number, sourceText line.text run⟩

/-- The recognized statements of a source, in order. -/
def program (source : String) : List Statement :=
  (Text.lines source).flatMap Text.Line.statements

/-- The texts of a source that are skipped, in order. -/
def skippedTexts (source : String) : List Skipped :=
  (Text.lines source).flatMap Text.Line.skipped

/-- The line holds one statement and nothing else. -/
structure Text.Line.Holds (line : Line) (s : Statement) : Prop where
  statements : line.statements = [s]
  skipped : line.skipped = []

/-- Lines that hold one statement each make up the program of these. -/
theorem program_of_holds {source : String} {ss : List Statement}
    (h : List.Forall₂ Text.Line.Holds (Text.lines source) ss) :
    program source = ss ∧ skippedTexts source = [] := by
  unfold program skippedTexts
  generalize Text.lines source = lines at h ⊢
  induction h with
  | nil => exact ⟨rfl, rfl⟩
  | cons hline _ ih => simp [hline.statements, hline.skipped, ih]

/-! ## Runs -/

namespace Progress

/-- Executes statements and reports texts as skipped. -/
def perform (p : Progress) (ss : List Statement) (texts : List Skipped) :
    Except Fault Progress :=
  (p.machine.executeAll ss).map fun machine => ⟨machine, p.skipped ++ texts.toArray⟩

theorem perform_nil (p : Progress) : p.perform [] [] = .ok p := by
  simp [perform, Except.map]

theorem perform_append (p : Progress) (a b : List Statement) (x y : List Skipped) :
    p.perform (a ++ b) (x ++ y) = (p.perform a x).bind (·.perform b y) := by
  unfold perform
  rw [Machine.executeAll_append]
  cases p.machine.executeAll a with
  | error fault => rfl
  | ok m =>
    show Except.map _ (m.executeAll b) = Except.map _ (m.executeAll b)
    simp

/-- A loop whose step performs what an element holds performs what all hold. -/
theorem foldlM_perform {α : Type} {step : Progress → α → Except Fault Progress}
    {statements : α → List Statement} {texts : α → List Skipped}
    (h : ∀ p x, step p x = p.perform (statements x) (texts x)) (xs : List α) (p : Progress) :
    xs.foldlM step p = p.perform (xs.flatMap statements) (xs.flatMap texts) := by
  induction xs generalizing p with
  | nil => exact (perform_nil p).symm
  | cons x xs ih =>
    rw [List.foldlM_cons, List.flatMap_cons, List.flatMap_cons, perform_append, h]
    exact congrArg _ (funext ih)

theorem runStatement_eq (line : Text.Line) (p : Progress) (run : List Token) :
    p.runStatement line run =
      p.perform ([classify line.text run].filter Statement.recognized)
        (([run].filter fun run => !(classify line.text run).recognized).map
          fun run => ⟨line.number, sourceText line.text run⟩) := by
  unfold runStatement perform
  cases hr : (classify line.text run).recognized with
  | false => simp [hr, Except.map, skip]
  | true =>
    cases h : p.machine.execute (classify line.text run) with
    | mk m fault =>
      cases fault with
      | none => simp [hr, h, Machine.executeAll, Except.map]
      | some fault => simp [hr, h, Machine.executeAll, Except.map]

theorem runLine_eq (p : Progress) (line : Text.Line) :
    p.runLine line = p.perform line.statements line.skipped := by
  unfold runLine Text.Line.statements Text.Line.skipped
  split
  · exact (perform_nil p).symm
  · cases lex line.text with
    | error e => simp [perform, Except.map, skip]
    | ok ts =>
      show (statementRuns ts).foldlM (runStatement line) p = _
      rw [foldlM_perform (runStatement_eq line)]
      congr 1
      · rw [← List.filter_flatMap, ← List.map_eq_flatMap]
      · rw [← List.map_flatMap, ← List.filter_flatMap, List.flatMap_singleton']

/-- A line that holds one statement executes it. -/
theorem runLine_of_holds {p : Progress} {line : Text.Line} {s : Statement} {m : Machine}
    (h : line.Holds s) (hs : p.machine.execute s = (m, none)) :
    p.runLine line = .ok { p with machine := m } := by
  rw [runLine_eq, h.statements, h.skipped, perform, Machine.executeAll_cons_of_ok hs]
  simp [Except.map]

theorem runLines_eq (p : Progress) (lines : List Text.Line) :
    p.runLines lines =
      p.perform (lines.flatMap Text.Line.statements) (lines.flatMap Text.Line.skipped) :=
  foldlM_perform runLine_eq lines p

end Progress

/-- A run executes the statements of its source, up to the first fault. -/
theorem run_eq (limits : Limits) (source : String) :
    run limits source =
      ((Machine.new limits).executeAll (program source)).map fun m =>
        ⟨m.console.lines.toList, skippedTexts source, m.executed⟩ := by
  rw [run, Progress.runLines_eq, Progress.perform]
  show Except.map _ (Except.map _ ((Machine.new limits).executeAll (program source))) = _
  cases (Machine.new limits).executeAll (program source) with
  | error fault => rfl
  | ok m => simp [Except.map, Progress.report, skippedTexts]

/-- A run that goes through executes its statements without a fault. -/
theorem run_eq_ok_iff {limits : Limits} {source : String} {report : Report} :
    run limits source = .ok report ↔
      ∃ m, (Machine.new limits).executeAll (program source) = .ok m ∧
        report = ⟨m.console.lines.toList, skippedTexts source, m.executed⟩ := by
  rw [run_eq]
  cases (Machine.new limits).executeAll (program source) with
  | error fault => simp [Except.map]
  | ok m => simp [Except.map, eq_comm]

/-- Outcomes of concrete runs can be compared. -/
instance : DecidableEq (Except Fault Report)
  | .ok a, .ok b => decidable_of_iff (a = b) ⟨congrArg _, Except.ok.inj⟩
  | .error a, .error b => decidable_of_iff (a = b) ⟨congrArg _, Except.error.inj⟩
  | .ok _, .error _ => .isFalse nofun
  | .error _, .ok _ => .isFalse nofun

end SnippetConsole
