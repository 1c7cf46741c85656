import SnippetConsole.Proofs.Run.Program
import SnippetConsole.Proofs.Statement.Scattered
import SnippetConsole.Proofs.Statement.SourceText

/-!
# What a run accounts for

Every part of every line is executed or reported as skipped, once.

* `Lexer.Reads.scattered_sourceText` — runs side by side have texts side by side.
* `Text.Line.statements_add_skipped` — what one line accounts for.
* `parts_accounted` — what a line is divided into, and what a run makes of it.
-/

namespace SnippetConsole

open Text

/-! ## Texts side by side -/

/-- The texts of runs lie in the text of a line as the runs do among its tokens. -/
theorem Lexer.Reads.scattered_sourceText {p : Token → Prop} {rest used : List Char} {start : Nat}
    {ts : List Token} {runs : List (List Token)} (h : Reads rest start ts used)
    (hruns : Scattered p runs ts) (hne : ∀ run ∈ runs, run ≠ []) {line : String}
    {before : List Char} (hbefore : byteCount before = start)
    (hline : line = String.ofList (before ++ used ++ rest)) :
    Scattered (fun _ => True) (runs.map fun run => (SnippetConsole.sourceText line run).toList)
      (used ++ rest) := by
  induction hruns generalizing used start before with
  | nil => exact .nil fun _ _ => trivial
  | @cons gap run after runs _ _ ih =>
    rw [List.append_assoc] at h
    obtain ⟨skipped, used, rfl, -, h⟩ := h.split
    obtain ⟨text, used, rfl, hrun, hafter⟩ := h.split
    obtain ⟨t, run, rfl⟩ := List.exists_cons_of_ne_nil (hne run List.mem_cons_self)
    obtain ⟨blanks, text, rfl, -, -, hsource⟩ := hrun.sourceText
    have htext : SnippetConsole.sourceText line (t :: run) = String.ofList text := by
      have := hsource 0 (before ++ skipped) (used ++ rest) (by rw [byteCount_append, hbefore]; rfl)
      rw [Token.shift_zero, List.map_id] at this
      rw [← this, hline]
      simp only [List.append_assoc]
    have hstart : byteCount (before ++ skipped ++ (blanks ++ text)) =
        start + byteCount skipped + byteCount (blanks ++ text) := by
      rw [byteCount_append, byteCount_append, hbefore]
    have hlater := ih hafter (fun r hr => hne r (List.mem_cons_of_mem _ hr)) hstart
      (by rw [hline]; simp only [List.append_assoc])
    have hgap : ∀ c ∈ skipped ++ blanks, True := fun _ _ => trivial
    rw [List.map_cons, htext, String.toList_ofList]
    simpa only [List.append_assoc] using (hlater.part text).prepend hgap

/-! ## One line -/

/-- How many statements a line holds, recognized or not; a line that cannot be read
counts as one. -/
def Text.Line.partCount (line : Line) : Nat :=
  match lex line.text with
  | .error _ => 1
  | .ok ts => (statementRuns ts).length

theorem Text.Line.statements_add_skipped (line : Line) :
    line.statements.length + line.skipped.length =
      if isNoise line.text then 0 else line.partCount := by
  unfold statements skipped partCount
  split
  · rfl
  · cases lex line.text with
    | error e => rfl
    | ok ts =>
      simp only [List.length_map, List.filter_map]
      exact (List.length_eq_length_filter_add _).symm

/-- The texts lie side by side in the line, and a report shows each under the number
of the line. -/
theorem Text.Line.exists_texts (line : Line) :
    ∃ texts : List (List Char), Scattered (fun _ => True) texts line.text.toList ∧
      line.skipped = texts.map fun text => ⟨line.number, String.ofList text⟩ := by
  unfold skipped
  split
  · exact ⟨[], .nil fun _ _ => trivial, rfl⟩
  · cases hlex : lex line.text with
    | error e =>
      have hend : Scattered (fun _ => True) [] ([] : List Char) := .nil (by simp)
      exact ⟨[line.text.toList], by simpa using hend.part line.text.toList, by simp⟩
    | ok ts =>
      obtain ⟨used, rest, htext, hreads, -⟩ := Lexer.reads_of_tokens hlex
      obtain ⟨runs, hruns⟩ : ∃ runs,
          runs = (statementRuns ts).filter fun run => !(classify line.text run).recognized :=
        ⟨_, rfl⟩
      have hne : ∀ run ∈ runs, run ≠ [] := by
        intro run hrun
        rw [hruns] at hrun
        exact (isInfix_of_mem_statementRuns (List.mem_filter.1 hrun).1).2
      have hscattered : Scattered (fun _ => True) runs ts := by
        rw [hruns]
        exact ((scattered_statementRuns ts).mono fun _ _ => trivial).filter
          fun _ _ _ _ _ => trivial
      have hline : line.text = String.ofList ([] ++ used ++ rest) := by
        rw [List.nil_append, ← htext, String.ofList_toList]
      refine ⟨runs.map fun run => (sourceText line.text run).toList, ?_, ?_⟩
      · rw [htext]
        exact hreads.scattered_sourceText hscattered hne byteCount_nil hline
      · simp [hruns]

/-! ## The whole run -/

/-- The runs of tokens are the statements that the tokens make: they lie side by side,
with semicolons and braces between them, and none is empty or starts in a brace. -/
structure Parted (runs : List (List Token)) (ts : List Token) : Prop where
  scattered : Scattered Token.isBetween runs ts
  ne_nil : ∀ run ∈ runs, run ≠ []
  bare : ∀ run ∈ runs, ∀ t ∈ run.head?, t.isBrace = false

/-- The report counts each part of the lines once, and shows what was skipped in the
order of the lines: under the number of each line, texts that lie side by side in it. -/
structure Accounts (lines : List Line) (report : Report) : Prop where
  count : report.statements + report.skipped.length =
    ((lines.filter (!isNoise ·.text)).map Line.partCount).sum
  skipped : ∃ texts : Line → List (List Char),
    (∀ line ∈ lines, Scattered (fun _ => True) (texts line) line.text.toList) ∧
      report.skipped = lines.flatMap fun line =>
        (texts line).map fun text => ⟨line.number, String.ofList text⟩

theorem length_program_add_skippedTexts (source : String) :
    (program source).length + (skippedTexts source).length =
      (((lines source).filter (!isNoise ·.text)).map Line.partCount).sum := by
  unfold program skippedTexts
  induction lines source with
  | nil => rfl
  | cons line rest ih =>
    have hline := line.statements_add_skipped
    simp only [List.flatMap_cons, List.length_append]
    cases hnoise : isNoise line.text with
    | true =>
      rw [List.filter_cons_of_neg (by simp [hnoise])]
      rw [if_pos hnoise] at hline
      omega
    | false =>
      rw [List.filter_cons_of_pos (by simp [hnoise]), List.map_cons, List.sum_cons]
      rw [if_neg (by simp [hnoise])] at hline
      omega

theorem accounts_of_executeAll {limits : Limits} {source : String} {m : Machine}
    (h : (Machine.new limits).executeAll (program source) = .ok m) :
    Accounts (lines source) ⟨m.console.lines.toList, skippedTexts source, m.executed⟩ := by
  have hexecuted : m.executed = (program source).length := by
    rw [← Machine.executeEach_of_executeAll h, Machine.executed_executeEach]
    exact Nat.zero_add _
  refine ⟨?_, ?_⟩
  · rw [hexecuted]
    exact length_program_add_skippedTexts source
  · choose texts hscattered hskipped using Line.exists_texts
    refine ⟨texts, fun line _ => hscattered line, ?_⟩
    exact congrArg ((lines source).flatMap ·) (funext hskipped)

/-- No statement is lost or counted twice: the tokens of a line lie in its parts, but
for what is between them, and a run that goes through executes or reports each part of
the lines that the source shows. These are all its lines, as long as they can be numbered. -/
theorem parts_accounted :
    (∀ ts, Parted (statementRuns ts) ts) ∧
      ∀ limits source report, run limits source = .ok report →
        Accounts (lines source) report ∧
          (lineCount source < numberCount → Accounts (numbered 1 (rawLines source)) report) := by
  refine ⟨?_, ?_⟩
  · intro ts
    exact ⟨scattered_statementRuns ts, fun run hrun => (isInfix_of_mem_statementRuns hrun).2,
      fun run hrun => isBrace_head_of_mem_statementRuns hrun⟩
  · intro limits source report h
    obtain ⟨m, hm, rfl⟩ := run_eq_ok_iff.1 h
    have haccounts := accounts_of_executeAll hm
    refine ⟨haccounts, fun hcount => ?_⟩
    rwa [lines_eq hcount] at haccounts

/-- A line with an executed and a skipped part between braces, and one that cannot be
read. -/
theorem parts_accounted_skipped :
    let source := "\x7b int x = 1; for each; \x7d\nx = 'a"
    let report : Report := ⟨[], [⟨1, "for each"⟩, ⟨2, "x = 'a"⟩], 1⟩
    run {} source = .ok report ∧ lineCount source < numberCount ∧
      Accounts (numbered 1 (rawLines source)) report := by
  intro source report
  have hrun : run {} source = .ok report := by decide +kernel
  have hcount : lineCount source < numberCount := by decide +kernel
  exact ⟨hrun, hcount, (parts_accounted.2 {} source report hrun).2 hcount⟩

end SnippetConsole
