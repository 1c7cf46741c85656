import SnippetConsole.Proofs.Expr.Evaluation
import SnippetConsole.Proofs.Run.Layout
import SnippetConsole.Proofs.Run.Program
import SnippetConsole.Proofs.Token.Written

/-!
# Printing literals

A literal is printed as it is written: nothing in it is taken for a comment, a
separator, a bracket or a keyword, from the cutting of the lines to the evaluation
of its source text.

* `StatementText.holds` — a statement text and a semicolon are one statement.
* `LiteralPrint.classify_eq` — the statement keeps the literal with its quotes.
* `simulate_literalProgram` — a program of such lines shows their texts.
-/

namespace SnippetConsole

open Text Lexer

/-! ## A statement on a line of its own -/

namespace StatementText

variable (s : StatementText)

/-- With a semicolon behind it the statement is the only one of its line, and the line as
a whole is the statement. -/
theorem exists_lex_line : ∃ ts, SnippetConsole.lex (s.text ++ ";") = .ok ts ∧
    classify (s.text ++ ";") ts = classify s.text s.tokens ∧ statementRuns ts = [s.tokens] ∧
    classify (s.text ++ ";") s.tokens = classify s.text s.tokens := by
  have hnone : Surrounds [] := fun c hc => absurd hc List.not_mem_nil
  have hline : s.text ++ ";" = String.ofList (s.chars ++ [';']) := by
    rw [← s.ofList_chars]
  have hreads := s.reads.2.concat_mark (by decide : ';' ∈ marks) (fun _ => rfl) []
  have hlex := hreads.lex
  rw [← hline] at hlex
  obtain ⟨ts, hts, hruns⟩ := lex_row hnone hnone s []
  have hrow : String.ofList ([] ++ rowChars [s] ++ []) = s.text ++ ";" := by
    rw [hline]
    simp [rowChars]
  rw [hrow, hlex] at hts
  have hclassify : classify (s.text ++ ";") s.tokens = classify s.text s.tokens := by
    have hmoved := classify_moved s.lex (List.infix_refl _) [] [';']
    simpa [String.ofList_append] using hmoved
  refine ⟨_, hlex, ?_, ?_, hclassify⟩
  · rw [classify_concat rfl, hclassify]
  · rw [Except.ok.inj hts, hruns]
    simp [places, placed]

/-- A recognized statement is all that its line holds. -/
theorem holds {line : Line} (hline : line.text = s.text ++ ";")
    (hrecognized : (classify s.text s.tokens).recognized = true) :
    line.Holds (classify s.text s.tokens) := by
  obtain ⟨ts, hts, -, hruns, hclassify⟩ := s.exists_lex_line
  rw [← hline] at hts hclassify
  have hvisible : isNoise line.text = false := hline ▸ s.visible
  constructor
  · simp [Line.statements, hvisible, hts, hruns, hclassify, hrecognized]
  · simp [Line.skipped, hvisible, hts, hruns, hclassify, hrecognized]

/-- Blanks around the statement are trimmed away. -/
theorem trimChars_around {lead trail : List Char} (hlead : ∀ c ∈ lead, isBlank c = true)
    (htrail : ∀ c ∈ trail, isBlank c = true) :
    String.ofList (trimChars (lead ++ (s.chars ++ [';']) ++ trail)) = s.text ++ ";" := by
  have hrow : rowChars [s] = s.chars ++ [';'] := rfl
  rw [← hrow, (tight_row s []).trimChars_around, List.dropWhile_eq_nil_iff.2 hlead,
    dropEndWhile_eq, List.rdropWhile_eq_nil_iff.2 htrail, hrow, List.nil_append, List.append_nil,
    s.ofList_chars]

end StatementText

/-! ## Lines that print a literal -/

/-- A line that prints a text: a call with one literal, and blanks around it. The text
may hold anything but a newline or a quote that is not escaped. -/
structure LiteralPrint where
  writer : String
  text : String
  lead : String
  trail : String
  writer_mem : writer ∈ consoleWriters
  escaped : Escaped '"' text.toList
  oneLine : '\n' ∉ text.toList
  blank : ∀ c ∈ lead.toList ++ trail.toList, isBlank c = true ∧ c ≠ '\n'

namespace LiteralPrint

variable (p : LiteralPrint)

/-- The call as it is written. -/
def call : String := "Console." ++ p.writer ++ "(\"" ++ p.text ++ "\")"

/-- The line as it is written. -/
def line : String := p.lead ++ p.call ++ ";" ++ p.trail

/-! ### Reading the call -/

/-- What stands before the literal. -/
def opening : List Char :=
  ['C', 'o', 'n', 's', 'o', 'l', 'e'] ++ ['.'] ++ p.writer.toList ++ ['(']

/-- The literal with its quotes. -/
def literal : List Char := Quote.string.opener ++ p.text.toList ++ [Quote.string.mark]

theorem toList_call : p.call.toList = p.opening ++ p.literal ++ [')'] := by
  have hconsole : "Console.".toList = ['C', 'o', 'n', 's', 'o', 'l', 'e'] ++ ['.'] := by decide
  have hopen : "(\"".toList = ['('] ++ Quote.string.opener := by decide
  have hclose : "\")".toList = [Quote.string.mark] ++ [')'] := by decide
  simp only [call, String.toList_append, hconsole, hopen, hclose, opening, literal,
    List.append_assoc]

/-- The literal as a token of the call. -/
def token : Token :=
  ⟨.quoted .string p.text, ⟨byteCount p.opening, byteCount p.opening + byteCount p.literal⟩⟩

/-- The tokens of the call. -/
def tokens : List Token :=
  let first := 8 + byteCount p.writer.toList
  let last := byteCount p.opening + byteCount p.literal
  [⟨.word "Console", ⟨0, 7⟩⟩, ⟨.dot, ⟨7, 8⟩⟩, ⟨.word p.writer, ⟨8, first⟩⟩,
    ⟨.opening .round, ⟨first, first + 1⟩⟩, p.token, ⟨.closing .round, ⟨last, last + 1⟩⟩]

theorem byteCount_opening : byteCount p.opening = 8 + byteCount p.writer.toList + 1 := by
  simp only [opening, byteCount_append]
  rfl

theorem reads_console (rest : List Char) :
    Reads ('.' :: rest) 0 [⟨.word "Console", ⟨0, 7⟩⟩] ['C', 'o', 'n', 's', 'o', 'l', 'e'] := by
  have hchars : "Console".toList = ['C', 'o', 'n', 's', 'o', 'l', 'e'] := by decide
  have hbytes : byteCount ['C', 'o', 'n', 's', 'o', 'l', 'e'] = 7 := by decide
  have hrest : ∀ d ∈ ('.' :: rest).head?, continuesWord d = false := by
    rintro d ⟨⟩
    decide
  have hname : isName "Console" = true := by decide
  have h := Reads.name hname hrest 0
  rwa [hchars, hbytes] at h

theorem reads_writer (rest : List Char) (start : Nat) :
    Reads ('(' :: rest) start [⟨.word p.writer, ⟨start, start + byteCount p.writer.toList⟩⟩]
      p.writer.toList := by
  have hnames : ∀ writer ∈ consoleWriters, isName writer = true := by decide
  have hrest : ∀ d ∈ ('(' :: rest).head?, continuesWord d = false := by
    rintro d ⟨⟩
    decide
  exact Reads.name (hnames p.writer p.writer_mem) hrest start

theorem reads_literal (rest : List Char) :
    Reads rest (byteCount p.opening) [p.token] p.literal := by
  have h := @Reads.literal .string _ p.escaped rest (byteCount p.opening)
  rwa [String.ofList_toList] at h

theorem reads_call : Reads [] 0 p.tokens p.call.toList := by
  have hdot (rest : List Char) : Reads rest 7 [⟨.dot, ⟨7, 8⟩⟩] ['.'] :=
    .single (c := '.') (starts_cons_iff.2 ⟨by decide, fun h => absurd h (by decide)⟩) rfl 7
  have hround (rest : List Char) (start : Nat) :
      Reads rest start [⟨.opening .round, ⟨start, start + 1⟩⟩] ['('] :=
    .single (c := '(') (starts_mark (by decide) rest) rfl start
  have hclose (start : Nat) : Reads [] start [⟨.closing .round, ⟨start, start + 1⟩⟩] [')'] :=
    .single (c := ')') (starts_mark (by decide) []) rfl start
  -- put together from the right, since each text looks at what stands behind it
  have hlast := (p.reads_literal _).append_of_eq rfl (hclose _)
  have hround := (hround _ _).append_of_eq p.byteCount_opening.symm hlast
  have hwriter := (p.reads_writer _ 8).append_of_eq rfl hround
  have hdot := (hdot _).append_of_eq rfl hwriter
  have hconsole : 0 + byteCount ['C', 'o', 'n', 's', 'o', 'l', 'e'] = 7 := by decide
  have hall := (reads_console _).append_of_eq hconsole hdot
  rw [toList_call]
  simpa [opening, tokens] using hall

theorem lex_call : lex p.call = .ok p.tokens := by
  rw [← String.ofList_toList (s := p.call)]
  exact p.reads_call.lex

/-! ### The statement of the call -/

theorem tight_literal : Tight p.literal where
  head := ⟨'"', rfl, by decide⟩
  getLast := ⟨'"', by simp [literal, Quote.mark], by decide⟩

/-- The source text of the argument is the literal with its quotes. -/
theorem sourceText_token : sourceText p.call [p.token] = String.ofList p.literal := by
  have hspan : p.token.span.merge p.token.span = p.token.span := by simp [Span.merge]
  have hslice := Span.slice_append p.opening p.literal [')']
  rw [← toList_call, String.ofList_toList] at hslice
  show (p.token.span.merge p.token.span).slice p.call = _
  rw [hspan]
  exact hslice

/-- The statement keeps the literal with its quotes. -/
theorem classify_eq : classify p.call p.tokens = .print (some ⟨String.ofList p.literal⟩) := by
  have hexpr : Shape.expr? p.call [p.token] = some ⟨String.ofList p.literal⟩ := by
    show some (Expr.of (sourceText p.call [p.token])) = _
    rw [sourceText_token, Expr.of, trim, String.toList_ofList, p.tight_literal.trimChars]
  have hprint : Shape.print? p.call (dropSemicolons p.tokens) =
      some (.print (some ⟨String.ofList p.literal⟩)) := by
    show (if _ then Shape.argument? p.call [p.token] else none) = _
    rw [if_pos ⟨rfl, p.writer_mem⟩]
    have hslot : Shape.slot? [p.token] = none := rfl
    rw [Shape.argument?, hslot, hexpr]
    rfl
  rw [classify, Shape.recognizers, List.findSome?_cons, hprint]
  rfl

/-- What is printed is the text between the quotes. -/
theorem prints : (classify p.call p.tokens).Prints p.text := by
  intro limits store
  have hlex : lex (String.ofList p.literal) =
      .ok [⟨.quoted .string p.text, ⟨0, byteCount p.literal⟩⟩] := by
    have h := (@Reads.literal .string _ p.escaped [] 0).lex
    rwa [String.ofList_toList, Nat.zero_add] at h
  rw [classify_eq, Statement.effect, Expr.value, evaluate?_of_literal hlex rfl]
  rfl

theorem sourceText_tokens : sourceText p.call p.tokens = p.call := by
  have h := p.reads_call.sourceText_eq rfl
  rwa [String.ofList_toList] at h

theorem isNoise_call : isNoise (p.call ++ ";") = false := by
  have hcall : p.call ++ ";" = String.ofList ('C' :: (['o', 'n', 's', 'o', 'l', 'e', '.'] ++
      p.writer.toList ++ ['('] ++ p.literal ++ [')', ';'])) := by
    rw [← String.toList_inj, String.toList_append, toList_call, String.toList_ofList]
    simp [opening]
  rw [hcall]
  exact isNoise_of_head (by decide) (by decide) (by decide)

/-- The call as a statement text. -/
def statementText : StatementText where
  text := p.call
  tokens := p.tokens
  lex := p.lex_call
  whole := p.sourceText_tokens
  ne_empty := by
    intro h
    have hlist := congrArg String.toList h
    rw [toList_call] at hlist
    simp at hlist
  oneLine := by
    have hwriters : ∀ writer ∈ consoleWriters, '\n' ∉ writer.toList := by decide
    have hwriter := hwriters p.writer p.writer_mem
    have htext := p.oneLine
    simp [toList_call, opening, literal, Quote.opener, Quote.mark, hwriter, htext]
  balanced := rfl
  solid := height_ne_zero_of_forall (by simp [tokens, token])
  bare := by simp [tokens, Token.isBrace]
  visible := p.isNoise_call

theorem recognized_call : (classify p.call p.tokens).recognized = true := by
  rw [classify_eq]
  rfl

theorem toList_line : p.line.toList =
    p.lead.toList ++ (p.statementText.chars ++ [';']) ++ p.trail.toList := by
  simp [line, statementText, StatementText.chars]

theorem blank_lead : ∀ c ∈ p.lead.toList, isBlank c = true ∧ c ≠ '\n' :=
  fun c hc => p.blank c (List.mem_append_left _ hc)

theorem blank_trail : ∀ c ∈ p.trail.toList, isBlank c = true ∧ c ≠ '\n' :=
  fun c hc => p.blank c (List.mem_append_right _ hc)

theorem newline_not_mem_line : '\n' ∉ p.line.toList := by
  have hlead : '\n' ∉ p.lead.toList := fun h => (p.blank_lead _ h).2 rfl
  have htrail : '\n' ∉ p.trail.toList := fun h => (p.blank_trail _ h).2 rfl
  have hcall : '\n' ∉ p.statementText.chars := p.statementText.oneLine
  simp [toList_line, hlead, htrail, hcall]

/-- Trimmed, the line is the call and its semicolon. -/
theorem trimChars_line : String.ofList (trimChars p.line.toList) = p.call ++ ";" := by
  rw [toList_line]
  exact p.statementText.trimChars_around (fun c hc => (p.blank_lead c hc).1)
    fun c hc => (p.blank_trail c hc).1

end LiteralPrint

/-! ## Programs -/

/-- The lines of a program that prints literals. -/
def literalProgram (ps : List LiteralPrint) : String := "\n".intercalate (ps.map LiteralPrint.line)

theorem holds_literalProgram {ps : List LiteralPrint} (hne : ps ≠ [])
    (hcount : ps.length < numberCount) :
    List.Forall₂ Line.Holds (lines (literalProgram ps))
      (ps.map fun p => classify p.call p.tokens) := by
  have hraw : rawLines (literalProgram ps) = ps.map fun p => p.line.toList := by
    rw [literalProgram, rawLines_intercalate (by simpa using hne), List.map_map]
    · rfl
    · intro text htext
      obtain ⟨p, -, rfl⟩ := List.mem_map.1 htext
      exact p.newline_not_mem_line
  have hlines := numbered_forall₂ 1 (rawLines (literalProgram ps))
  rw [hraw, List.forall₂_map_right_iff] at hlines
  rw [lines_eq (by rwa [lineCount, hraw, List.length_map]), hraw, List.forall₂_map_right_iff]
  refine hlines.imp fun line p htext => ?_
  exact p.statementText.holds (htext.trans p.trimChars_line) p.recognized_call

/-- A program of literals prints them in order, skips nothing and counts every line. -/
theorem run_literalProgram {ps : List LiteralPrint} {limits : Limits} (hne : ps ≠ [])
    (hcount : ps.length < numberCount) (hstatements : ps.length ≤ limits.statements)
    (hlines : ps.length ≤ limits.outputLines) :
    run limits (literalProgram ps) = .ok ⟨ps.map (·.text), [], ps.length⟩ := by
  obtain ⟨hprogram, hskipped⟩ := program_of_holds (holds_literalProgram hne hcount)
  have hprints : List.Forall₂ Statement.Prints (ps.map fun p => classify p.call p.tokens)
      (ps.map (·.text)) := by
    rw [List.forall₂_map_left_iff, List.forall₂_map_right_iff, List.forall₂_same]
    exact fun p _ => p.prints
  have hrun := Machine.executeAll_of_prints (m := .new limits) hprints
    (by simpa [Machine.new] using hstatements) (by simpa [Machine.new] using hlines)
  rw [run_eq_ok_iff]
  refine ⟨_, by rw [hprogram, hrun], ?_⟩
  simp [hskipped, Machine.printed, Machine.new]

/-- A program of literals shows their texts, one line each. -/
theorem simulate_literalProgram (ps : List LiteralPrint) (hne : ps ≠ [])
    (hlength : ps.length ≤ 10000) :
    simulate (literalProgram ps) = .ok ("\n".intercalate (ps.map (·.text))) := by
  have hcount : ps.length < numberCount := Nat.lt_of_le_of_lt hlength (by decide)
  rw [simulate, run_literalProgram hne hcount hlength hlength]
  have hprinted : (ps.map (·.text)).isEmpty = false := by simpa using hne
  simp [Except.map, Report.output, Console.render, hprinted]

/-- A text that would start a comment, a block and two statements. -/
def markersPrint : LiteralPrint where
  writer := "WriteLine"
  text := "// \x7b x; /* class ("
  lead := "  "
  trail := "\t"
  writer_mem := by decide
  escaped := by decide
  oneLine := by decide
  blank := List.all_iff_forall_prop.1 (by decide)

/-- A text with quotes and backslashes in it. -/
def quotesPrint : LiteralPrint where
  writer := "Write"
  text := "say \\\"hi\\\"; C:\\\\"
  lead := ""
  trail := ""
  writer_mem := by decide
  escaped := by decide
  oneLine := by decide
  blank := List.all_iff_forall_prop.1 (by decide)

/-- Two texts that look like code. -/
theorem simulate_literalProgram_markers :
    ([markersPrint, quotesPrint] ≠ [] ∧ [markersPrint, quotesPrint].length ≤ 10000) ∧
      simulate ("  Console.WriteLine(\"// \x7b x; /* class (\");\t\n" ++
          "Console.Write(\"say \\\"hi\\\"; C:\\\\\");") =
        .ok "// \x7b x; /* class (\nsay \\\"hi\\\"; C:\\\\" := by
  have hsource : literalProgram [markersPrint, quotesPrint] =
      "  Console.WriteLine(\"// \x7b x; /* class (\");\t\n" ++
        "Console.Write(\"say \\\"hi\\\"; C:\\\\\");" := by decide +kernel
  refine ⟨by decide, ?_⟩
  rw [← hsource]
  exact simulate_literalProgram [markersPrint, quotesPrint] (by decide) (by decide)

end SnippetConsole
