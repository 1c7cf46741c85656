import Mathlib
import SnippetConsole.Proofs.Statement.Parts
import SnippetConsole.Proofs.Statement.Recognition
import SnippetConsole.Proofs.Token.Reads

/-!
# The source text of a run

An expression is kept as the text from its first token to its last and is read
again, without its line, when it is evaluated. What is cut out starts and ends
in a token, so trimming leaves it as it is, and it is read as the same tokens.

* `Lexer.Reads.sourceText` — the text of a run, wherever the run stands.
* `Lexer.Reads.sourceText_eq` — the text of all tokens of a text.
* `classify_moved` — a text makes the same statement in any line it is part of.
* `lex_expr_of_classify` — expressions read as the runs they were cut from.
-/

namespace SnippetConsole

open Text

namespace Lexer

/-! ## Cutting out -/

/-- The text that a run uses is trivia and then the source text of the run; this
stays so when the run and its text are moved to another place. -/
theorem Reads.sourceText {rest used : List Char} {start : Nat} {t : Token} {ts : List Token}
    (h : Reads rest start (t :: ts) used) :
    ∃ blanks text, used = blanks ++ text ∧ Tight text ∧
      Reads rest t.span.start (t :: ts) text ∧
      ∀ n before after, byteCount before = start + n →
        sourceText (String.ofList (before ++ used ++ after)) ((t :: ts).map (Token.shift n)) =
          String.ofList text := by
  obtain ⟨blanks, c, cs, rfl, hstart, hc, htight⟩ := h.tight
  refine ⟨blanks, c :: cs, rfl, ?_, htight, ?_⟩
  · have hlast := List.getLast?_eq_some_getLast (List.cons_ne_nil c cs)
    exact ⟨⟨c, rfl, hc⟩, ⟨_, hlast, htight.isBlank_getLast hlast⟩⟩
  · intro n before after hbefore
    obtain ⟨last, hlast⟩ : ∃ last, (t :: ts).getLast? = some last :=
      ⟨_, List.getLast?_eq_some_getLast (List.cons_ne_nil t ts)⟩
    have hfirst := htight.bounds t List.mem_cons_self
    have hlater := htight.bounds last (List.mem_of_getLast? hlast)
    have hstop := htight.stop_getLast hlast
    -- from the first token to the last is from the start of the text to its end
    have hspan : (t.shift n).span.merge (last.shift n).span =
        ⟨byteCount (before ++ blanks), byteCount (before ++ blanks) + byteCount (c :: cs)⟩ := by
      simp only [Token.shift, Span.shift, Span.merge, byteCount_append, Span.mk.injEq]
      omega
    have htext : before ++ (blanks ++ c :: cs) ++ after =
        before ++ blanks ++ (c :: cs) ++ after := by simp
    rw [SnippetConsole.sourceText, List.getLast?_map, hlast]
    simp only [List.map_cons, List.head?_cons, Option.map_some]
    rw [hspan, htext, Span.slice_append]

/-- The tokens of a text that starts with the first of them span the text. -/
theorem Reads.sourceText_eq {used : List Char} {t : Token} {ts : List Token}
    (h : Reads [] 0 (t :: ts) used) (ht : t.span.start = 0) :
    SnippetConsole.sourceText (String.ofList used) (t :: ts) = String.ofList used := by
  obtain ⟨last, hlast⟩ : ∃ last, (t :: ts).getLast? = some last :=
    ⟨_, List.getLast?_eq_some_getLast (List.cons_ne_nil t ts)⟩
  have hfirst := h.bounds t List.mem_cons_self
  have hstop := h.stop_getLast hlast
  have hspan : t.span.merge last.span = ⟨0, byteCount used⟩ := by
    simp only [Span.merge, Span.mk.injEq]
    omega
  have hslice := Span.slice_append [] used []
  rw [List.nil_append, List.append_nil, byteCount_nil, Nat.zero_add] at hslice
  rw [SnippetConsole.sourceText, hlast]
  simp only [List.head?_cons]
  rw [hspan, hslice]

/-- So do they where the text stands in a longer one. -/
theorem Reads.sourceText_moved {used : List Char} {t : Token} {ts : List Token}
    (h : Reads [] 0 (t :: ts) used) (ht : t.span.start = 0) (before after : List Char) :
    SnippetConsole.sourceText (String.ofList (before ++ used ++ after))
      ((t :: ts).map (Token.shift (byteCount before))) = String.ofList used := by
  obtain ⟨blanks, text, -, -, -, hsource⟩ := h.sourceText
  have halone := hsource 0 [] [] rfl
  rw [List.nil_append, List.append_nil, Token.shift_zero, List.map_id, h.sourceText_eq ht]
    at halone
  rw [hsource (byteCount before) before after (Nat.zero_add _).symm, halone]

/-- A run of the tokens of a line uses a part of the line. -/
theorem reads_of_infix {line : String} {ts run : List Token} (h : lex line = .ok ts)
    (hrun : run <:+: ts) :
    ∃ before used after, line = String.ofList (before ++ used ++ after) ∧
      Reads after (byteCount before) run used := by
  obtain ⟨a, b, rfl⟩ := hrun
  obtain ⟨used, rest, htext, hreads, -⟩ := reads_of_tokens h
  rw [List.append_assoc] at hreads
  obtain ⟨before, used, rfl, -, hreads⟩ := hreads.split
  obtain ⟨used, after, rfl, hreads, -⟩ := hreads.split
  refine ⟨before, used, after ++ rest, ?_, by simpa using hreads⟩
  rw [← String.ofList_toList (s := line), htext]
  simp

end Lexer

/-! ## Moving -/

theorem sourceText_moved {line : String} {ts run : List Token} (h : lex line = .ok ts)
    (hrun : run <:+: ts) (before after : List Char) :
    sourceText (String.ofList (before ++ line.toList ++ after))
      (run.map (Token.shift (byteCount before))) = sourceText line run := by
  cases run with
  | nil => rfl
  | cons t run =>
    obtain ⟨left, used, right, rfl, hreads⟩ := Lexer.reads_of_infix h hrun
    obtain ⟨blanks, text, rfl, -, -, hsource⟩ := hreads.sourceText
    have hhere := hsource 0 left right rfl
    have hthere := hsource (byteCount before) (before ++ left) (right ++ after)
      (by rw [byteCount_append, Nat.add_comm])
    rw [Token.shift_zero, List.map_id] at hhere
    rw [hhere, ← hthere, String.toList_ofList]
    simp only [List.append_assoc]

theorem classify_moved {line : String} {ts run : List Token} (h : lex line = .ok ts)
    (hrun : run <:+: ts) (before after : List Char) :
    classify (String.ofList (before ++ line.toList ++ after))
      (run.map (Token.shift (byteCount before))) = classify line run := by
  have hagree : Agree (String.ofList (before ++ line.toList ++ after)) line Eq
      (Token.shift (byteCount before)) id run := by
    refine ⟨fun _ _ => rfl, ?_⟩
    intro part hpart _ _
    rw [sourceText_moved h (hpart.trans hrun), List.map_id]
  have := (classify_similar hagree).eq
  rwa [List.map_id] at this

/-! ## Reading again -/

/-- The source text of the run has no blanks at its ends and, read by itself, it
gives the run, shifted to the left by the start of its first token. -/
structure ReadsAgain (line : String) (t : Token) (run : List Token) : Prop where
  text : (Expr.of (sourceText line (t :: run))).text = sourceText line (t :: run)
  lex : ∃ us, lex (Expr.of (sourceText line (t :: run))).text = .ok us ∧
    us.map (Token.shift t.span.start) = t :: run

theorem readsAgain_of_infix {line : String} {ts run : List Token} {t : Token}
    (h : lex line = .ok ts) (hrun : t :: run <:+: ts) : ReadsAgain line t run := by
  obtain ⟨before, used, after, rfl, hreads⟩ := Lexer.reads_of_infix h hrun
  obtain ⟨blanks, text, rfl, htext, htight, hsource⟩ := hreads.sourceText
  have hsource' := hsource 0 before after rfl
  rw [Token.shift_zero, List.map_id] at hsource'
  have hexpr : (Expr.of (sourceText (String.ofList (before ++ (blanks ++ text) ++ after))
      (t :: run))).text = String.ofList text := by
    rw [hsource', Expr.of, trim, String.toList_ofList, htext.trimChars]
  -- nothing behind the last token is needed to read it
  obtain ⟨us, hus, halone⟩ := (htight.of_follows .done).unshift (Nat.le_refl _)
  rw [Nat.sub_self] at halone
  exact ⟨by rw [hexpr, hsource'], us, by rw [hexpr]; exact halone.lex, hus⟩

/-- In a line that is read, the text of each run is read as the run, and every
expression of its statements is the text of a balanced run that is not empty. -/
theorem lex_expr_of_classify {line : String} {ts : List Token} (h : lex line = .ok ts) :
    (∀ t run, t :: run <:+: ts → ReadsAgain line t run) ∧
      ∀ part ∈ statementRuns ts, ∀ e ∈ (classify line part).exprs,
        ∃ t run, t :: run <:+: part ∧ balanced (t :: run) = true ∧
          e = .of (sourceText line (t :: run)) ∧ ReadsAgain line t run := by
  refine ⟨fun t run => readsAgain_of_infix h, ?_⟩
  intro part hpart
  have hinfix := (isInfix_of_mem_statementRuns hpart).1
  -- agreement of the part with itself
  have hagree : Agree line line (fun e e' => e = e' ∧ ∃ t run, t :: run <:+: part ∧
      balanced (t :: run) = true ∧ e = .of (sourceText line (t :: run)) ∧
        ReadsAgain line t run) id id part := by
    refine ⟨fun _ _ => rfl, ?_⟩
    intro run hrun hne hb
    rw [List.map_id] at hb ⊢
    refine ⟨rfl, ?_⟩
    cases run with
    | nil => exact absurd rfl hne
    | cons t run => exact ⟨t, run, hrun, hb, rfl, readsAgain_of_infix h (hrun.trans hinfix)⟩
  have hexprs := (classify_similar hagree).exprs
  rw [List.map_id, List.forall₂_same] at hexprs
  intro e he
  exact (hexprs e he).2

/-- A right-hand side with a comment in it. -/
theorem lex_expr_of_classify_comment :
    ∃ t run, balanced (t :: run) = true ∧ Expr.mk "a /* b */ + c" =
      .of (sourceText "x = a /* b */ + c;" (t :: run)) ∧
        ReadsAgain "x = a /* b */ + c;" t run := by
  have hlex : lex "x = a /* b */ + c;" =
      .ok [⟨.word "x", ⟨0, 1⟩⟩, ⟨.equals, ⟨2, 3⟩⟩, ⟨.word "a", ⟨4, 5⟩⟩,
        ⟨.operator .add, ⟨14, 15⟩⟩, ⟨.word "c", ⟨16, 17⟩⟩, ⟨.semicolon, ⟨17, 18⟩⟩] := by cbv
  obtain ⟨t, run, -, h⟩ := (lex_expr_of_classify hlex).2
    [⟨.word "x", ⟨0, 1⟩⟩, ⟨.equals, ⟨2, 3⟩⟩, ⟨.word "a", ⟨4, 5⟩⟩, ⟨.operator .add, ⟨14, 15⟩⟩,
      ⟨.word "c", ⟨16, 17⟩⟩] (by decide) ⟨"a /* b */ + c"⟩
    (by rw [show classify _ _ = .assign "x" ⟨"a /* b */ + c"⟩ by cbv]; decide)
  exact ⟨t, run, h⟩

end SnippetConsole
