import SnippetConsole.Proofs.Expr.Kinds
import SnippetConsole.Proofs.Statement.SourceText
import SnippetConsole.Proofs.Token.Spacing

/-!
# Spacing does not change meaning

What a line means lies in the kinds of its tokens. A line written again with other
blanks between its tokens, and without its comments, is read as tokens of the same
kinds; it is worth the same in every store, and it makes the same statement, with
expressions that are again read as the same kinds.

* `Expr.SameKinds` — two expressions that differ in their spacing at most.
* `classify_similar_of_kinds` — lines of the same kinds make similar statements.
* `alike_of_spaced` — a line and the same line spaced otherwise mean the same.
-/

namespace SnippetConsole

/-- The texts of the two expressions are read as the same kinds. -/
def Expr.SameKinds (e e' : Expr) : Prop :=
  ∃ ts us, lex e.text = .ok ts ∧ lex e'.text = .ok us ∧ ts.map Token.kind = us.map Token.kind

/-- The text of a run is read as the kinds of the run. -/
theorem ReadsAgain.kinds {line : String} {t : Token} {run : List Token}
    (h : ReadsAgain line t run) : ∃ us,
      SnippetConsole.lex (Expr.of (sourceText line (t :: run))).text = .ok us ∧
        us.map Token.kind = (t :: run).map Token.kind := by
  obtain ⟨us, hus, hshift⟩ := h.lex
  refine ⟨us, hus, ?_⟩
  rw [← hshift, List.map_map]
  rfl

section

variable {line line' : String} {ts us : List Token}

/-- Tokens of the same kinds, paired, agree as runs of their lines. -/
theorem agree_zip (h : lex line = .ok ts) (h' : lex line' = .ok us)
    (hkinds : ts.map Token.kind = us.map Token.kind) :
    Agree line line' Expr.SameKinds Prod.fst Prod.snd (ts.zip us) := by
  have hlength : ts.length = us.length := by simpa using congrArg List.length hkinds
  have hfst : (ts.zip us).map Prod.fst = ts := List.map_fst_zip hlength.le
  have hsnd : (ts.zip us).map Prod.snd = us := List.map_snd_zip hlength.ge
  have hsame : SnippetConsole.SameKinds Prod.fst Prod.snd (ts.zip us) := by
    have hpaired : (ts.zip us).map (Token.kind ∘ Prod.fst) =
        (ts.zip us).map (Token.kind ∘ Prod.snd) := by
      rw [← List.map_map, ← List.map_map, hfst, hsnd, hkinds]
    exact List.map_inj_left.1 hpaired
  refine ⟨hsame, fun ys hys hne _ => ?_⟩
  obtain ⟨y, ys, rfl⟩ := List.exists_cons_of_ne_nil hne
  have hleft : (y :: ys).map Prod.fst <:+: ts := hfst ▸ hys.map Prod.fst
  have hright : (y :: ys).map Prod.snd <:+: us := hsnd ▸ hys.map Prod.snd
  have hreads := readsAgain_of_infix h hleft
  have hreads' := readsAgain_of_infix h' hright
  obtain ⟨vs, hvs, hsame₁⟩ := hreads.kinds
  obtain ⟨vs', hvs', hsame₂⟩ := hreads'.kinds
  refine ⟨vs, vs', hvs, hvs', ?_⟩
  rw [hsame₁, hsame₂, ← List.map_cons, ← List.map_cons, List.map_map, List.map_map]
  exact List.map_congr_left fun z hz => hsame z (hys.subset hz)

theorem classify_similar_of_kinds (h : lex line = .ok ts) (h' : lex line' = .ok us)
    (hkinds : ts.map Token.kind = us.map Token.kind) :
    (classify line ts).Similar Expr.SameKinds (classify line' us) := by
  have hlength : ts.length = us.length := by simpa using congrArg List.length hkinds
  have hsimilar := classify_similar (agree_zip h h' hkinds)
  rwa [List.map_fst_zip hlength.le, List.map_snd_zip hlength.ge] at hsimilar

/-- A line and the texts of its tokens with other blanks between them are read as the
same kinds, are worth the same by the same number of steps in every store, and make
the same statement but for the spacing of its expressions. -/
theorem alike_of_spaced (h : lex line = .ok ts)
    (hs : Spaced (ts.map fun t => (t.span.slice line).toList) line'.toList) :
    ∃ us, lex line' = .ok us ∧ us.map Token.kind = ts.map Token.kind ∧
      (∀ store, evaluate? store line' = evaluate? store line ∧
        stepsUsed store line' = stepsUsed store line) ∧
      (classify line ts).Similar Expr.SameKinds (classify line' us) := by
  obtain ⟨us, hlex, hkinds⟩ := exists_lex_of_spaced h hs
  refine ⟨us, hlex, hkinds, fun store => ?_, classify_similar_of_kinds h hlex hkinds.symm⟩
  rw [evaluate?, evaluate?, stepsUsed, stepsUsed, attempt_eq_of_kinds hlex h hkinds store]
  exact ⟨rfl, rfl⟩

end

/-- The comment is left out, and two signs or slashes stay two. -/
theorem alike_of_spaced_comment :
    let line := "x=$\"\x7by\x7d\"+ +a/ /**//b"
    let line' := "x = $\"\x7by\x7d\" + + a / / b"
    ∃ ts, lex line = .ok ts ∧ Spaced (ts.map fun t => (t.span.slice line).toList) line'.toList ∧
      ∃ us, lex line' = .ok us ∧ us.map Token.kind = ts.map Token.kind ∧
        (∀ store, evaluate? store line' = evaluate? store line ∧
          stepsUsed store line' = stepsUsed store line) ∧
        (classify line ts).Similar Expr.SameKinds (classify line' us) := by
  intro line line'
  let ts : List Token := [⟨.word "x", ⟨0, 1⟩⟩, ⟨.equals, ⟨1, 2⟩⟩,
    ⟨.quoted .interpolated "\x7by\x7d", ⟨2, 8⟩⟩, ⟨.operator .add, ⟨8, 9⟩⟩,
    ⟨.operator .add, ⟨10, 11⟩⟩, ⟨.word "a", ⟨11, 12⟩⟩, ⟨.operator .div, ⟨12, 13⟩⟩,
    ⟨.operator .div, ⟨18, 19⟩⟩, ⟨.word "b", ⟨19, 20⟩⟩]
  have hlex : lex line = .ok ts := by cbv
  have hblank : ∀ c ∈ [' '], Text.isBlank c = true := List.forall_mem_singleton.2 rfl
  have hline' : line'.toList =
      [' '].intercalate (ts.map fun t => (t.span.slice line).toList) := by decide +kernel
  have hspaced : Spaced (ts.map fun t => (t.span.slice line).toList) line'.toList := by
    rw [hline']
    exact .intercalate (List.cons_ne_nil _ _) hblank _
  exact ⟨ts, hlex, hspaced, alike_of_spaced hlex hspaced⟩

end SnippetConsole
