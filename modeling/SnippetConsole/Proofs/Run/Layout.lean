import SnippetConsole.Proofs.Run.Noise
import SnippetConsole.Proofs.Statement.SourceText
import SnippetConsole.Run.Basic

/-!
# The layout of a source

Statements may stand on one line or on a line each. Where a statement shares its
line, its tokens are moved to another place; what it does and the text under
which it is skipped stay the same.

* `StatementText` — a text that is one statement.
* `runLine_row` — a line of statements performs them one after the other.
* `run_layout` — one line and many lines show the same.
-/

namespace SnippetConsole

open Text Lexer

/-! ## Statement texts -/

/-- A text that is one statement wherever it stands: it is read as a run that is
balanced and needs no braces or semicolons of its own to be told apart, it starts
and ends with its tokens, and its line is no noise. -/
structure StatementText where
  text : String
  tokens : List Token
  lex : lex text = .ok tokens
  whole : sourceText text tokens = text
  ne_empty : text ≠ ""
  oneLine : '\n' ∉ text.toList
  balanced : balanced tokens = true
  /-- Each semicolon stands inside a bracket. -/
  solid : ∀ pre t post, tokens = pre ++ t :: post → t.kind = .semicolon → height pre ≠ 0
  bare : ∀ t ∈ tokens.head?, t.isBrace = false
  visible : isNoise (text ++ ";") = false

namespace StatementText

variable (s : StatementText)

def chars : List Char := s.text.toList

theorem tokens_ne_nil : s.tokens ≠ [] := by
  intro h
  have := s.whole
  rw [h] at this
  exact s.ne_empty this.symm

theorem separate : Separate s.tokens where
  ne_nil := s.tokens_ne_nil
  balanced := s.balanced
  solid := by simpa [Solid] using s.solid
  bare := s.bare

/-- The text is used up by its tokens. -/
theorem reads : Tight s.chars ∧ Reads [] 0 s.tokens s.chars := by
  obtain ⟨t, ts, hts⟩ := List.exists_cons_of_ne_nil s.tokens_ne_nil
  obtain ⟨before, used, after, htext, hreads⟩ := reads_of_infix s.lex (List.infix_refl s.tokens)
  rw [hts] at hreads
  obtain ⟨blanks, text, rfl, htight, -, hsource⟩ := hreads.sourceText
  have hwhole := hsource 0 before after rfl
  rw [Token.shift_zero, List.map_id, ← htext, ← hts, s.whole, htext] at hwhole
  -- what is left and right of the text would make it longer than itself
  have hlength := congrArg List.length (String.ofList_injective hwhole)
  simp only [List.length_append] at hlength
  have hbefore : before = [] := List.eq_nil_of_length_eq_zero (by omega)
  have hblanks : blanks = [] := List.eq_nil_of_length_eq_zero (by omega)
  have hafter : after = [] := List.eq_nil_of_length_eq_zero (by omega)
  subst hbefore hblanks hafter
  rw [← hts] at hreads
  have hchars : s.chars = text := by rw [chars, htext]; simp
  rw [hchars]
  exact ⟨htight, by simpa using hreads⟩

end StatementText

/-! ## Rows -/

/-- Statements one after the other, with a semicolon behind each and a blank
before each but the first. -/
def rowChars : List StatementText → List Char
  | [] => []
  | s :: ss => s.chars ++ ';' :: ss.flatMap fun s => ' ' :: (s.chars ++ [';'])

/-- The statements of a row that starts at byte `n`, and where each starts. -/
def places (n : Nat) : List StatementText → List (Nat × StatementText)
  | [] => []
  | s :: ss => (n, s) :: places (n + byteCount s.chars + 2) ss

/-- The tokens of a statement at its place, and of the semicolon behind it. -/
def placed (p : Nat × StatementText) : List Token × Token :=
  (p.2.tokens.map (Token.shift p.1),
    ⟨.semicolon, ⟨p.1 + byteCount p.2.chars, p.1 + byteCount p.2.chars + 1⟩⟩)

theorem utf8Size_blank : ' '.utf8Size = 1 := rfl

theorem byteCount_semicolon (cs : List Char) : byteCount (cs ++ [';']) = byteCount cs + 1 := by
  rw [byteCount_append]
  rfl

theorem map_places (n : Nat) (ss : List StatementText) : (places n ss).map (·.2) = ss := by
  induction ss generalizing n with
  | nil => rfl
  | cons s ss ih => rw [places, List.map_cons, ih]

theorem forall₂_places {n : Nat} {ss : List StatementText}
    {R : Nat × StatementText → StatementText → Prop} (h : ∀ p ∈ places n ss, R p p.2) :
    List.Forall₂ R (places n ss) ss := by
  have := List.forall₂_map_right_iff.2 (List.forall₂_same.2 h)
  rwa [map_places] at this

theorem reads_placed (n : Nat) (s : StatementText) (rest : List Char) :
    Reads rest n ((placed (n, s)).1 ++ [(placed (n, s)).2]) (s.chars ++ [';']) := by
  have hs : Reads (';' :: rest) 0 s.tokens s.chars := s.reads.2.of_follows (.broken (by decide))
  have hmoved := hs.shift n
  rw [Nat.zero_add] at hmoved
  exact hmoved.append (reads_semicolon _ rest)

theorem reads_row_tail (n : Nat) (ss : List StatementText) (rest : List Char) :
    Reads rest n ((places (n + 1) ss).flatMap fun p => (placed p).1 ++ [(placed p).2])
      (ss.flatMap fun s => ' ' :: (s.chars ++ [';'])) := by
  induction ss generalizing n with
  | nil => exact .nil
  | cons s ss ih =>
    have hs := reads_placed (n + 1) s ((ss.flatMap fun s => ' ' :: (s.chars ++ [';'])) ++ rest)
    obtain ⟨t, ts, hts⟩ := List.exists_cons_of_ne_nil
      (show (placed (n + 1, s)).1 ++ [(placed (n + 1, s)).2] ≠ [] by simp)
    rw [places, List.flatMap_cons, List.flatMap_cons]
    refine Reads.append ?_ ?_
    · rw [hts] at hs ⊢
      exact hs.blank (by decide)
    · have hnext : n + byteCount (' ' :: (s.chars ++ [';'])) + 1 =
          n + 1 + byteCount s.chars + 2 := by
        rw [byteCount_cons, utf8Size_blank, byteCount_semicolon]
        omega
      rw [← hnext]
      exact ih _

theorem reads_row (n : Nat) (s : StatementText) (ss : List StatementText) (rest : List Char) :
    Reads rest n ((places n (s :: ss)).flatMap fun p => (placed p).1 ++ [(placed p).2])
      (rowChars (s :: ss)) := by
  have hnext : n + byteCount (s.chars ++ [';']) + 1 = n + byteCount s.chars + 2 := by
    rw [byteCount_semicolon]
    omega
  have htail := reads_row_tail (n + byteCount (s.chars ++ [';'])) ss rest
  rw [hnext] at htail
  have := (reads_placed n s _).append htail
  rwa [List.append_assoc s.chars] at this

/-- Each statement of a row stands in the row's text at its place. -/
theorem exists_chars_of_mem_places {n : Nat} {s : StatementText} {ss : List StatementText}
    {p : Nat × StatementText} (hp : p ∈ places n (s :: ss)) :
    ∃ before after, rowChars (s :: ss) = before ++ p.2.chars ++ after ∧
      n + byteCount before = p.1 := by
  induction ss generalizing n s with
  | nil =>
    obtain rfl := List.mem_singleton.1 hp
    exact ⟨[], [';'], by simp [rowChars], rfl⟩
  | cons next ss ih =>
    rcases List.mem_cons.1 hp with rfl | hp
    · exact ⟨[], _, rfl, rfl⟩
    · obtain ⟨before, after, hrow, hbefore⟩ := ih hp
      refine ⟨s.chars ++ [';', ' '] ++ before, after, ?_, ?_⟩
      · simp only [rowChars, List.flatMap_cons, List.cons_append, List.append_assoc] at hrow ⊢
        rw [← hrow]
        simp
      · have hgap : s.chars ++ [';', ' '] ++ before = (s.chars ++ [';']) ++ ' ' :: before := by
          simp
        rw [← hbefore, hgap, byteCount_append, byteCount_semicolon, byteCount_cons,
          utf8Size_blank]
        omega

theorem tight_row (s : StatementText) (ss : List StatementText) : Tight (rowChars (s :: ss)) := by
  obtain ⟨c, hc, hcb⟩ := s.reads.1.head
  refine ⟨⟨c, by simp [rowChars, hc], hcb⟩, ';', ?_, by decide⟩
  rcases List.eq_nil_or_concat' ss with rfl | ⟨ss, t, rfl⟩
  · simp [rowChars]
  · rw [rowChars, List.flatMap_append]
    simp [List.getLast?_cons]

/-! ## A line of statements -/

/-- What may stand around statements that share a line: braces and blanks. -/
def Surrounds (cs : List Char) : Prop :=
  ∀ c ∈ cs, c = '\x7b' ∨ c = '\x7d' ∨ isBlank c = true ∧ c ≠ '\n'

theorem Surrounds.sublist {cs ds : List Char} (h : Surrounds cs) (hd : ds.Sublist cs) :
    Surrounds ds := fun c hc => h c (hd.subset hc)

theorem Surrounds.newline {cs : List Char} (h : Surrounds cs) : '\n' ∉ cs := by
  intro hc
  rcases h _ hc with h | h | h
  · exact absurd h (by decide)
  · exact absurd h (by decide)
  · exact h.2 rfl

theorem Surrounds.braces {cs : List Char} (h : Surrounds cs) :
    ∀ c ∈ cs, c = '\x7b' ∨ c = '\x7d' ∨ isBlank c = true :=
  fun c hc => (h c hc).imp_right (Or.imp_right And.left)

theorem lex_row {lead trail : List Char} (hlead : Surrounds lead) (htrail : Surrounds trail)
    (s : StatementText) (ss : List StatementText) :
    ∃ ts, lex (String.ofList (lead ++ rowChars (s :: ss) ++ trail)) = .ok ts ∧
      statementRuns ts = (places (byteCount lead) (s :: ss)).map fun p => (placed p).1 := by
  obtain ⟨opened, hopened, htokens⟩ := tokens_braces hlead.braces 0
  obtain ⟨closed, hclosed, hend⟩ := tokens_braces htrail.braces
    (0 + byteCount lead + byteCount (rowChars (s :: ss)))
  have hend := hend []
  rw [List.append_nil, tokens_of_trivia (show (trivia []).2 = [] from rfl)] at hend
  have hrow := (reads_row (0 + byteCount lead) s ss trail).tokens
  refine ⟨opened ++ ((((places (byteCount lead) (s :: ss)).map placed).flatMap
    fun p => p.1 ++ [p.2]) ++ closed), ?_, ?_⟩
  · rw [lex, String.toList_ofList, List.append_assoc, htokens, hrow, hend, Nat.zero_add,
      List.flatMap_map]
    simp [Except.map]
  · rw [statementRuns_row, List.map_map]
    · rfl
    · simpa [Token.isBrace] using hopened
    · simpa [Token.isBrace] using hclosed
    · simp [places]
    · intro q hq
      obtain ⟨p, -, rfl⟩ := List.mem_map.1 hq
      exact ⟨p.2.separate.map (Token.kind_shift p.1), rfl⟩

/-! ## Noise -/

theorem StatementText.ofList_chars (s : StatementText) :
    String.ofList (s.chars ++ [';']) = s.text ++ ";" := by
  rw [← String.toList_inj, String.toList_append]
  simp [chars]

theorem isNoise_row {lead : List Char} (hlead : Surrounds lead)
    (hblank : ∀ c ∈ lead.head?, isBlank c = false) (s : StatementText) (ss : List StatementText)
    (hfirst : ∀ w ∈ (words (s.text ++ ";")).head?, w ∉ Noise.modifiers) (trail : List Char) :
    isNoise (String.ofList (lead ++ rowChars (s :: ss) ++ trail)) = false := by
  cases lead with
  | nil =>
    -- the first statement starts the line, and its own line is no noise
    have hhead : ∃ c, (s.chars ++ [';']).head? = some c ∧ isBlank c = false := by
      obtain ⟨c, hc, hcb⟩ := s.reads.1.head
      exact ⟨c, by simp [hc], hcb⟩
    obtain ⟨ws, hws⟩ := words_of_head hhead
    have hword : firstWord (s.chars ++ [';']) ∉ Noise.modifiers := by
      refine hfirst _ ?_
      rw [← s.ofList_chars, hws]
      rfl
    have hvisible := s.visible
    rw [← s.ofList_chars] at hvisible
    have := isNoise_append_semicolon s.reads.1.head hvisible hword
      ((ss.flatMap fun s => ' ' :: (s.chars ++ [';'])) ++ trail)
    simpa [rowChars] using this
  | cons c lead =>
    -- a brace starts the line, which is too long to be a lone brace
    have hbrace : c = '\x7b' ∨ c = '\x7d' := by
      rcases hlead c List.mem_cons_self with h | h | h
      · exact .inl h
      · exact .inr h
      · rw [hblank c rfl] at h
        cases h.1
    have hlength : 2 ≤ (lead ++ rowChars (s :: ss) ++ trail).length := by
      obtain ⟨d, hd, -⟩ := s.reads.1.head
      obtain ⟨ds, hds⟩ := List.head?_eq_some_iff.1 hd
      simp only [rowChars, hds, List.length_append, List.length_cons]
      omega
    exact isNoise_of_brace hbrace hlength

/-! ## Performing statements -/

/-- What of a run does not depend on the layout: the machine and the texts of
what was skipped. -/
def Progress.view (p : Progress) : Machine × List String :=
  (p.machine, p.skipped.toList.map (·.text))

/-- A statement by itself: it is executed, or skipped under its text. -/
def StatementText.perform (v : Machine × List String) (s : StatementText) :
    Except Fault (Machine × List String) :=
  let statement := classify s.text s.tokens
  if statement.recognized then
    match v.1.execute statement with
    | (machine, none) => .ok (machine, v.2)
    | (_, some fault) => .error fault
  else .ok (v.1, v.2 ++ [s.text])

theorem runStatement_view {line : Line} {run : List Token} {s : StatementText}
    (hc : classify line.text run = classify s.text s.tokens)
    (ht : sourceText line.text run = s.text) (p : Progress) :
    (p.runStatement line run).map Progress.view = s.perform p.view := by
  unfold Progress.runStatement StatementText.perform
  simp only [hc, ht]
  split
  · cases h : p.machine.execute (classify s.text s.tokens) with
    | mk machine fault =>
      cases fault with
      | none => simp [Progress.view, h, Except.map]
      | some fault => simp [Progress.view, h, Except.map]
  · simp [Progress.view, Progress.skip, Except.map]

theorem foldlM_view {α β : Type} {step : Progress → α → Except Fault Progress}
    {effect : Machine × List String → β → Except Fault (Machine × List String)}
    {xs : List α} {ys : List β}
    (h : List.Forall₂ (fun x y => ∀ p, (step p x).map Progress.view = effect p.view y) xs ys)
    (p : Progress) : (xs.foldlM step p).map Progress.view = ys.foldlM effect p.view := by
  induction h generalizing p with
  | nil => rfl
  | @cons x y xs ys hstep _ ih =>
    rw [List.foldlM_cons, List.foldlM_cons, ← hstep]
    cases hx : step p x with
    | error fault => rfl
    | ok p' => exact ih p'

/-- A line of statements performs them one after the other. -/
theorem runLine_row {lead trail : List Char} (hlead : Surrounds lead) (htrail : Surrounds trail)
    (s : StatementText) (ss : List StatementText)
    (hvisible : isNoise (String.ofList (lead ++ rowChars (s :: ss) ++ trail)) = false)
    (number : Nat) (p : Progress) :
    (p.runLine ⟨number, String.ofList (lead ++ rowChars (s :: ss) ++ trail)⟩).map Progress.view =
      (s :: ss).foldlM StatementText.perform p.view := by
  obtain ⟨ts, hts, hruns⟩ := lex_row hlead htrail s ss
  rw [Progress.runLine, hvisible, if_neg Bool.false_ne_true, hts]
  simp only [hruns]
  refine foldlM_view ?_ p
  rw [List.forall₂_map_left_iff]
  refine forall₂_places fun q hq => ?_
  -- the statement is read at its place as it is read alone, only shifted
  obtain ⟨before, after, hrow, hplace⟩ := exists_chars_of_mem_places hq
  have htext : lead ++ rowChars (s :: ss) ++ trail =
      lead ++ before ++ q.2.text.toList ++ (after ++ trail) := by
    rw [hrow]
    simp [StatementText.chars]
  have hrun : (placed q).1 = q.2.tokens.map (Token.shift (byteCount (lead ++ before))) := by
    rw [byteCount_append, hplace]
    rfl
  refine runStatement_view ?_ ?_
  · rw [htext, hrun, classify_moved q.2.lex (List.infix_refl _)]
  · rw [htext, hrun, sourceText_moved q.2.lex (List.infix_refl _), q.2.whole]

/-! ## The two layouts -/

/-- What of a report does not depend on the layout: the printed lines, the number
of statements and the texts of what was skipped. -/
def Report.visible (r : Report) : List String × Nat × List String :=
  (r.lines, r.statements, r.skipped.map (·.text))

theorem run_visible (limits : Limits) (source : String) :
    (run limits source).map Report.visible =
      ((Progress.runLines { machine := .new limits } (lines source)).map Progress.view).map
        fun v => (v.1.console.lines.toList, v.1.executed, v.2) := by
  rw [run]
  cases Progress.runLines { machine := .new limits } (lines source) <;> rfl

/-- The statements on one line, between two other texts. -/
def oneLine (lead : String) (ss : List StatementText) (trail : String) : String :=
  lead ++ " ".intercalate (ss.map (·.text ++ ";")) ++ trail

/-- The statements on a line each. -/
def manyLines (ss : List StatementText) : String := "\n".intercalate (ss.map (·.text ++ ";"))

theorem toList_intercalate_blank (s : StatementText) (ss : List StatementText) :
    (" ".intercalate ((s :: ss).map (·.text ++ ";"))).toList = rowChars (s :: ss) := by
  induction ss generalizing s with
  | nil => simp [rowChars, StatementText.chars]
  | cons next ss ih =>
    have := ih next
    rw [List.map_cons] at this
    rw [List.map_cons, List.map_cons, String.intercalate_cons_cons, String.toList_append,
      String.toList_append, this]
    simp [rowChars, StatementText.chars]

theorem newline_not_mem_rowChars (s : StatementText) (ss : List StatementText) :
    '\n' ∉ rowChars (s :: ss) := by
  have hchars (t : StatementText) : '\n' ∉ t.chars := t.oneLine
  simp [rowChars, hchars]

theorem runLines_oneLine {lead trail : String} (hlead : Surrounds lead.toList)
    (htrail : Surrounds trail.toList) (s : StatementText) (ss : List StatementText)
    (hfirst : ∀ w ∈ (words (s.text ++ ";")).head?, w ∉ Noise.modifiers) (p : Progress) :
    (p.runLines (lines (oneLine lead (s :: ss) trail))).map Progress.view =
      (s :: ss).foldlM StatementText.perform p.view := by
  have hchars : (oneLine lead (s :: ss) trail).toList =
      lead.toList ++ rowChars (s :: ss) ++ trail.toList := by
    rw [oneLine, String.toList_append, String.toList_append, toList_intercalate_blank]
  have hraw : rawLines (oneLine lead (s :: ss) trail) =
      [lead.toList ++ rowChars (s :: ss) ++ trail.toList] := by
    rw [rawLines_eq_singleton, hchars]
    simp [hchars, hlead.newline, htrail.newline, newline_not_mem_rowChars]
  -- trimming takes blanks off what surrounds the row, but not off the row
  have hlines : lines (oneLine lead (s :: ss) trail) =
      [⟨1, String.ofList (lead.toList.dropWhile isBlank ++ rowChars (s :: ss) ++
        dropEndWhile isBlank trail.toList)⟩] := by
    have hcount : lineCount (oneLine lead (s :: ss) trail) < numberCount := by
      rw [lineCount, hraw, List.length_singleton]
      decide
    rw [lines_eq hcount, hraw, ← (tight_row s ss).trimChars_around]
    rfl
  have hopened := hlead.sublist (List.dropWhile_sublist isBlank)
  have hend := List.rdropWhile_prefix isBlank trail.toList
  have hclosed := htrail.sublist hend.sublist
  have hblank : ∀ c ∈ (lead.toList.dropWhile isBlank).head?, isBlank c = false :=
    of_mem_head?_dropWhile
  rw [hlines, Progress.runLines, List.foldlM_cons]
  simp only [List.foldlM_nil, bind_pure]
  exact runLine_row hopened hclosed s ss (isNoise_row hopened hblank s ss hfirst _) 1 p

theorem runLines_manyLines (s : StatementText) (ss : List StatementText)
    (hcount : (s :: ss).length < numberCount) (p : Progress) :
    (p.runLines (lines (manyLines (s :: ss)))).map Progress.view =
      (s :: ss).foldlM StatementText.perform p.view := by
  have hraw : rawLines (manyLines (s :: ss)) = (s :: ss).map fun s => s.chars ++ [';'] := by
    rw [manyLines, rawLines_intercalate (by simp), List.map_map]
    · refine List.map_congr_left fun t _ => ?_
      simp [StatementText.chars]
    · intro text htext
      obtain ⟨t, -, rfl⟩ := List.mem_map.1 htext
      simpa using t.oneLine
  have hlines := numbered_forall₂ 1 (rawLines (manyLines (s :: ss)))
  rw [hraw, List.forall₂_map_right_iff] at hlines
  rw [lines_eq (by rwa [lineCount, hraw, List.length_map]), hraw]
  refine foldlM_view (hlines.imp fun line t htext => ?_) p
  have hrow : rowChars [t] = t.chars ++ [';'] := rfl
  rw [← hrow, (tight_row t []).trimChars] at htext
  obtain ⟨number, text⟩ := line
  obtain rfl := htext
  -- a line of its own is a row of one statement
  have hnone : Surrounds [] := fun c hc => absurd hc List.not_mem_nil
  have hvisible : isNoise (String.ofList ([] ++ rowChars [t] ++ [])) = false := by
    rw [List.nil_append, List.append_nil, hrow, t.ofList_chars]
    exact t.visible
  have hline := runLine_row hnone hnone t [] hvisible number
  simp only [List.nil_append, List.append_nil, List.foldlM_cons, List.foldlM_nil,
    bind_pure] at hline
  exact hline

/-- Statements show the same whether they share one line or have a line each, as long as
there are line numbers for all of them. -/
theorem run_layout (limits : Limits) (first : StatementText) (rest : List StatementText)
    (hcount : (first :: rest).length < numberCount)
    (hfirst : ∀ w ∈ (words (first.text ++ ";")).head?, w ∉ Noise.modifiers) {lead trail : String}
    (hlead : Surrounds lead.toList) (htrail : Surrounds trail.toList) :
    (run limits (oneLine lead (first :: rest) trail)).map Report.visible =
      (run limits (manyLines (first :: rest))).map Report.visible := by
  rw [run_visible, run_visible, runLines_oneLine hlead htrail first rest hfirst,
    runLines_manyLines first rest hcount]

theorem height_ne_zero_of_forall {ts : List Token} (h : ∀ t ∈ ts, t.kind ≠ .semicolon) :
    ∀ pre t post, ts = pre ++ t :: post → t.kind = .semicolon → height pre ≠ 0 := by
  rintro pre t post rfl ht
  exact absurd ht (h t (by simp))

theorem lex_declareText : lex "var a = \"x\"" =
    .ok [⟨.word "var", ⟨0, 3⟩⟩, ⟨.word "a", ⟨4, 5⟩⟩, ⟨.equals, ⟨6, 7⟩⟩,
      ⟨.quoted .string "x", ⟨8, 11⟩⟩] := by cbv

theorem lex_printText : lex "Console.WriteLine(a)" =
    .ok [⟨.word "Console", ⟨0, 7⟩⟩, ⟨.dot, ⟨7, 8⟩⟩, ⟨.word "WriteLine", ⟨8, 17⟩⟩,
      ⟨.opening .round, ⟨17, 18⟩⟩, ⟨.word "a", ⟨18, 19⟩⟩, ⟨.closing .round, ⟨19, 20⟩⟩] := by cbv

/-- `var a = "x"` -/
def declareText : StatementText where
  text := "var a = \"x\""
  tokens := _
  lex := lex_declareText
  whole := by decide
  ne_empty := by decide
  oneLine := by decide
  balanced := by decide
  solid := height_ne_zero_of_forall (by decide)
  bare := by decide
  visible := by decide +kernel

/-- `Console.WriteLine(a)` -/
def printText : StatementText where
  text := "Console.WriteLine(a)"
  tokens := _
  lex := lex_printText
  whole := by decide
  ne_empty := by decide
  oneLine := by decide
  balanced := by decide
  solid := height_ne_zero_of_forall (by decide)
  bare := by decide
  visible := by decide +kernel

/-- A block on one line shows what its two statements show. -/
theorem run_layout_block :
    (run {} "\x7b var a = \"x\"; Console.WriteLine(a); \x7d").map Report.visible =
      (run {} "var a = \"x\";\nConsole.WriteLine(a);").map Report.visible := by
  have hlead : Surrounds "\x7b ".toList := List.all_iff_forall_prop.1 (by decide +kernel)
  have htrail : Surrounds " \x7d".toList := List.all_iff_forall_prop.1 (by decide +kernel)
  have hone : oneLine "\x7b " [declareText, printText] " \x7d" =
      "\x7b var a = \"x\"; Console.WriteLine(a); \x7d" := by decide +kernel
  have hmany : manyLines [declareText, printText] =
      "var a = \"x\";\nConsole.WriteLine(a);" := by decide +kernel
  rw [← hone, ← hmany]
  exact run_layout {} declareText [printText] (by decide) (by decide +kernel) hlead htrail

end SnippetConsole
