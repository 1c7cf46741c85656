import SnippetConsole.Proofs.Run.Program

/-!
# Sources one after the other

The lines of two sources joined by a newline are the lines of the first and then
those of the second. So a run of both is the run of the first, continued with the
second on the machine that the first left behind.

* `lines_append` — the lines of the second source, with their new numbers.
* `run_append` — the run of both, and what it says about the run of the first.
-/

namespace SnippetConsole

open Text

/-! ## Line numbers -/

/-- The line as many lines further down. -/
def Text.Line.shift (n : Nat) (line : Line) : Line := { line with number := line.number + n }

/-- The skipped text as many lines further down. -/
def Skipped.shift (n : Nat) (s : Skipped) : Skipped := { s with line := s.line + n }

theorem Text.numbered_add (first n : Nat) (raw : List (List Char)) :
    numbered (first + n) raw = (numbered first raw).map (Line.shift n) := by
  induction raw generalizing first with
  | nil => rfl
  | cons cs raw ih =>
    have hnext : first + n + 1 = first + 1 + n := by omega
    show _ :: numbered (first + n + 1) raw = _ :: (numbered (first + 1) raw).map (Line.shift n)
    rw [hnext, ih]
    rfl

section

variable {a b : String} (h : Text.lineCount a + Text.lineCount b < Text.numberCount)
include h

theorem Text.lines_append :
    lines (a ++ "\n" ++ b) = lines a ++ (lines b).map (Line.shift (lineCount a)) := by
  have ha : lineCount a < numberCount := Nat.lt_of_le_of_lt (Nat.le_add_right _ _) h
  have hb : lineCount b < numberCount := Nat.lt_of_le_of_lt (Nat.le_add_left _ _) h
  rw [← lineCount_append] at h
  rw [lines_eq h, lines_eq ha, lines_eq hb, rawLines_append, numbered_append]
  exact congrArg (numbered 1 (rawLines a) ++ ·) (numbered_add 1 (lineCount a) (rawLines b))

end

/-- Lines are numbered from the first number on. -/
theorem Text.le_number_of_mem_numbered {first : Nat} {raw : List (List Char)} {line : Line}
    (h : line ∈ numbered first raw) : first ≤ line.number := by
  obtain ⟨⟨cs, n⟩, hmem, rfl⟩ := List.mem_map.1 h
  exact List.le_snd_of_mem_zipIdx hmem

/-! ## What the lines hold -/

theorem Text.Line.skipped_shift (n : Nat) (line : Line) :
    (line.shift n).skipped = line.skipped.map (Skipped.shift n) := by
  have htext : (line.shift n).text = line.text := rfl
  unfold skipped
  rw [htext]
  by_cases hnoise : isNoise line.text = true
  · rw [if_pos hnoise, if_pos hnoise]
    rfl
  · rw [if_neg hnoise, if_neg hnoise]
    cases lex line.text with
    | error e => rfl
    | ok ts =>
      simp only [List.map_map]
      rfl

theorem Text.Line.line_of_mem_skipped {line : Line} {s : Skipped} (h : s ∈ line.skipped) :
    s.line = line.number := by
  unfold skipped at h
  split at h
  · exact absurd h List.not_mem_nil
  · split at h
    · rw [List.mem_singleton.1 h]
    · obtain ⟨run, -, rfl⟩ := List.mem_map.1 h
      rfl

section

variable {a b : String} (h : lineCount a + lineCount b < numberCount)
include h

theorem program_append : program (a ++ "\n" ++ b) = program a ++ program b := by
  rw [program, lines_append h, List.flatMap_append, List.flatMap_map]
  -- the statements of a line do not depend on its number
  rfl

theorem skippedTexts_append :
    skippedTexts (a ++ "\n" ++ b) =
      skippedTexts a ++ (skippedTexts b).map (Skipped.shift (lineCount a)) := by
  have hshift : (fun line => (Line.shift (lineCount a) line).skipped) =
      fun line => line.skipped.map (Skipped.shift (lineCount a)) :=
    funext (Line.skipped_shift (lineCount a))
  rw [skippedTexts, lines_append h, List.flatMap_append, List.flatMap_map, hshift,
    ← List.map_flatMap]
  rfl

end

/-- No line has the number zero. -/
theorem line_pos_of_mem_skippedTexts {source : String} {s : Skipped}
    (h : s ∈ skippedTexts source) : 0 < s.line := by
  obtain ⟨line, hline, hs⟩ := List.mem_flatMap.1 h
  rw [Line.line_of_mem_skipped hs]
  exact le_number_of_mem_numbered hline

/-! ## Two sources -/

/-- A run of two sources, whose lines together can be numbered, is the run of the first,
continued with the lines of the second. A fault in the first is the fault of both; without
a fault the first has printed, skipped and executed what comes first of it all. -/
theorem run_append (limits : Limits) (a b : String)
    (hcount : lineCount a + lineCount b < numberCount) :
    run limits (a ++ "\n" ++ b) =
        ((Progress.runLines { machine := .new limits } (lines a)).bind
          (·.runLines ((lines b).map (Line.shift (lineCount a))))).map Progress.report ∧
      (∀ fault, run limits a = .error fault → run limits (a ++ "\n" ++ b) = .error fault) ∧
      ∀ report, run limits (a ++ "\n" ++ b) = .ok report →
        ∃ first later, run limits a = .ok first ∧ first.lines <+: report.lines ∧
          report.skipped = first.skipped ++ later ∧ (∀ s ∈ later, lineCount a < s.line) ∧
            first.statements ≤ report.statements := by
  refine ⟨?_, ?_, ?_⟩
  · rw [run, lines_append hcount, Progress.runLines_append]
  · intro fault hfault
    rw [run_eq] at hfault ⊢
    rw [program_append hcount, Machine.executeAll_append]
    cases h : (Machine.new limits).executeAll (program a) with
    | error f =>
      rw [h] at hfault
      exact hfault
    | ok m =>
      rw [h] at hfault
      cases hfault
  · intro report hreport
    obtain ⟨r, hr, rfl⟩ := run_eq_ok_iff.1 hreport
    rw [program_append hcount, Machine.executeAll_append] at hr
    cases h : (Machine.new limits).executeAll (program a) with
    | error f =>
      rw [h] at hr
      cases hr
    | ok m =>
      rw [h] at hr
      -- the statements of the second source only add to the machine
      obtain rfl : m.executeEach (program b) = r := Machine.executeEach_of_executeAll hr
      refine ⟨_, (skippedTexts b).map (Skipped.shift (lineCount a)),
        run_eq_ok_iff.2 ⟨m, h, rfl⟩, m.lines_executeEach _, skippedTexts_append hcount, ?_, ?_⟩
      · intro s hs
        obtain ⟨s', hs', rfl⟩ := List.mem_map.1 hs
        have := line_pos_of_mem_skippedTexts hs'
        show lineCount a < s'.line + lineCount a
        omega
      · show m.executed ≤ (m.executeEach (program b)).executed
        rw [Machine.executed_executeEach]
        omega

/-- A source that declares a name, and one that is partly skipped and prints it;
without room for lines the first source fails, and so do both. -/
theorem run_append_declare :
    run ⟨9, 0, 9⟩ ("Console.WriteLine();" ++ "\n" ++ "x") = .error (.outputLimit 0) ∧
      ∃ first later, run {} "var a = \"x\";" = .ok first ∧ first.lines <+: ["x"] ∧
        [⟨2, "oops"⟩] = first.skipped ++ later ∧
          (∀ s ∈ later, lineCount "var a = \"x\";" < s.line) ∧ first.statements ≤ 2 :=
  ⟨(run_append ⟨9, 0, 9⟩ "Console.WriteLine();" "x" (by decide)).2.1 (.outputLimit 0)
      (by decide +kernel),
    (run_append {} "var a = \"x\";" "oops;\nConsole.WriteLine(a);" (by decide)).2.2
      ⟨["x"], [⟨2, "oops"⟩], 2⟩ (by decide +kernel)⟩

end SnippetConsole
