import SnippetConsole.Proofs.Machine.OneLine
import SnippetConsole.Proofs.Run.Program
import SnippetConsole.Proofs.Statement.Parts

/-!
# Reading the printed lines back

A source is cut at its newlines before anything is read, so no statement has one in its
texts, and none is ever printed. The output, cut at its newlines, is then the list of
printed lines.

* `oneLine_of_mem_program`, `oneLine_of_mem_skippedTexts` — what is cut from a source.
* `splitOn_output_of_run` — the lines of a run can be read back from its output.
-/

namespace SnippetConsole

/-! ## What is cut from a source -/

namespace Text.Line

variable {line : Line} (hline : OneLine line.text)
include hline

theorem oneLine_of_mem_statements {s : Statement} (hs : s ∈ line.statements) : s.OneLine := by
  unfold statements at hs
  split at hs
  · cases hs
  · cases hlex : lex line.text with
    | error e =>
      rw [hlex] at hs
      cases hs
    | ok ts =>
      rw [hlex] at hs
      obtain ⟨part, hpart, rfl⟩ := List.mem_map.1 (List.mem_filter.1 hs).1
      have hsubset := (isInfix_of_mem_statementRuns hpart).1.subset
      exact oneLine_classify hline ((within_of_lex hlex).subset hsubset)

theorem oneLine_of_mem_skipped {s : Skipped} (hs : s ∈ line.skipped) : OneLine s.text := by
  unfold skipped at hs
  split at hs
  · cases hs
  · cases hlex : lex line.text with
    | error e =>
      rw [hlex] at hs
      obtain rfl := List.mem_singleton.1 hs
      exact hline
    | ok ts =>
      rw [hlex] at hs
      obtain ⟨part, -, rfl⟩ := List.mem_map.1 hs
      exact hline.of_isInfix (sourceText_isInfix line.text part)

end Text.Line

theorem oneLine_of_mem_program {source : String} {s : Statement} (hs : s ∈ program source) :
    s.OneLine := by
  obtain ⟨line, hline, hs⟩ := List.mem_flatMap.1 hs
  exact Text.Line.oneLine_of_mem_statements (Text.newline_not_mem_of_mem_lines hline) hs

theorem oneLine_of_mem_skippedTexts {source : String} {s : Skipped}
    (hs : s ∈ skippedTexts source) : Text.OneLine s.text := by
  obtain ⟨line, hline, hs⟩ := List.mem_flatMap.1 hs
  exact Text.Line.oneLine_of_mem_skipped (Text.newline_not_mem_of_mem_lines hline) hs

/-! ## What is printed -/

theorem splitOn_render {lines : List String} (hne : lines ≠ [])
    (h : ∀ line ∈ lines, Text.OneLine line) :
    (Console.render lines).toList.splitOn '\n' = lines.map String.toList := by
  have hempty : lines.isEmpty = false := List.isEmpty_eq_false_iff.2 hne
  have hlines : ∀ cs ∈ lines.map String.toList, '\n' ∉ cs := List.forall_mem_map.2 h
  calc (Console.render lines).toList.splitOn '\n'
      = (['\n'].intercalate (lines.map String.toList)).splitOn '\n' := by
        rw [Console.render, hempty]
        simp [String.toList_intercalate]
    _ = lines.map String.toList :=
        List.splitOn_intercalate '\n' hlines (by simpa using hne)

/-- In a run that goes through, no printed line and no skipped text has a newline, and
the output cut at its newlines is the list of printed lines, if there are any. -/
theorem splitOn_output_of_run {limits : Limits} {source : String} {report : Report}
    (h : run limits source = .ok report) :
    (∀ line ∈ report.lines, '\n' ∉ line.toList) ∧
      (∀ skipped ∈ report.skipped, '\n' ∉ skipped.text.toList) ∧
        (report.lines ≠ [] →
          (report.output.toList.splitOn '\n').map String.ofList = report.lines) := by
  obtain ⟨m, hm, rfl⟩ := run_eq_ok_iff.1 h
  have hlines : ∀ line ∈ m.console.lines.toList, Text.OneLine line :=
    ((Machine.oneLine_new limits).executeAll (fun _ => oneLine_of_mem_program) hm).lines
  refine ⟨hlines, fun _ => oneLine_of_mem_skippedTexts, ?_⟩
  intro hne
  rw [Report.output, splitOn_render hne hlines, List.map_map]
  simp [Function.comp_def]

/-- Two printed lines, one of them by a number, and a skipped text between them. -/
theorem splitOn_output_of_run_skipped :
    let source := "Console.WriteLine(\"a\");\nfor each;\nConsole.WriteLine(1 + 2);"
    let report : Report := ⟨["a", "3"], [⟨2, "for each"⟩], 2⟩
    run {} source = .ok report ∧ report.lines ≠ [] ∧
      (report.output.toList.splitOn '\n').map String.ofList = ["a", "3"] := by
  intro source report
  have hrun : run {} source = .ok report := by decide +kernel
  have hne : report.lines ≠ [] := List.cons_ne_nil _ _
  exact ⟨hrun, hne, (splitOn_output_of_run hrun).2.2 hne⟩

end SnippetConsole
