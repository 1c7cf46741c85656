import Mathlib
import SnippetConsole.Proofs.Statement.Forms
import SnippetConsole.Proofs.Token.Nested
import SnippetConsole.Token.Lexer

/-!
# Brackets in a recognized statement

Every form is made of fixed tokens, expressions and enclosed runs, all balanced, so a
statement that is recognized is balanced. As the depth does not tell the shapes of
brackets apart, it may still close a bracket by one of another shape.

* `balanced_of_recognized` — a recognized statement is balanced.
* `not_wellNested_of_recognized` — it need not be well nested.
* `wellNested_iff_of_recognized` — it is if each pair of brackets has one shape.
-/

namespace SnippetConsole

namespace Grammar

variable {line : String} {ts rest : List Token}

/-- Fixed tokens keep the balance if they are balanced themselves. -/
theorem Leads.balanced {kinds : List Kind} (h : Leads kinds ts rest)
    (hkinds : balanced (kinds.map (⟨·, ⟨0, 0⟩⟩)) = true) (hrest : balanced rest = true) :
    SnippetConsole.balanced ts = true := by
  obtain ⟨front, rfl, rfl⟩ := h.exists_append
  refine balanced_append ?_ hrest
  rw [List.map_map] at hkinds
  have hsame : SameKinds id (fun t => (⟨t.kind, ⟨0, 0⟩⟩ : Token)) front := fun _ _ => rfl
  have := balanced_map hsame
  rw [List.map_id] at this
  exact this.symm.trans hkinds

theorem Init.balanced {typed : Bool} {init : ArrayInit} (h : Init line typed ts init) :
    balanced ts = true := by
  cases h with
  | list hleads henclosed => exact hleads.balanced rfl henclosed.balanced
  | sized hleads henclosed => exact hleads.balanced rfl henclosed.balanced
  | bare _ henclosed => exact henclosed.balanced

theorem Fits.balanced {form : Form} {s : Statement} (h : Fits line form ts s) :
    balanced ts = true := by
  cases h with
  | print hleads _ henclosed => exact hleads.balanced rfl henclosed.balanced
  | makeArray hleads hinit => exact hleads.balanced rfl hinit.balanced
  | makeVar hleads hinit => exact hleads.balanced rfl hinit.balanced
  | construct hleads henclosed => exact hleads.balanced rfl henclosed.balanced
  | declare hleads _ hexpr => exact hleads.balanced rfl hexpr.balanced
  | setField hleads hexpr => exact hleads.balanced rfl hexpr.balanced
  | setSlot hleads henclosed _ hequals hexpr =>
    have hrest := hequals.balanced rfl hexpr.balanced
    exact hleads.balanced rfl (balanced_append henclosed.balanced hrest)
  | assign hleads hexpr => exact hleads.balanced rfl hexpr.balanced
  | update hleads hexpr => exact hleads.balanced rfl hexpr.balanced
  | stepBehind hleads => exact hleads.balanced rfl rfl
  | stepInFront hleads => exact hleads.balanced rfl rfl
  | call hleads _ henclosed => exact hleads.balanced rfl henclosed.balanced

end Grammar

/-- Every bracket of a recognized statement is closed within it, by a bracket of whatever
shape. -/
theorem balanced_of_recognized {line : String} {ts : List Token}
    (h : (classify line ts).recognized = true) : balanced ts = true := by
  obtain ⟨semicolons, hts, hsemicolons, -⟩ := Grammar.trimmed_iff.2 (rfl : dropSemicolons ts = _)
  have hflat : balanced semicolons = true := by
    refine balanced_of_flat fun t ht => ?_
    rw [hsemicolons t ht]
    rfl
  unfold classify at h
  cases hs : (Shape.recognizers line).findSome? (· (dropSemicolons ts)) with
  | none =>
    rw [hs] at h
    cases h
  | some s =>
    obtain ⟨_, form, _, -, hfits, -⟩ := Grammar.findSome?_recognizers_eq_some_iff.1 hs
    rw [hts]
    exact balanced_append hfits.balanced hflat

/-- The argument list of a print may be closed by a square bracket. -/
theorem not_wellNested_of_recognized :
    ¬∀ line ts part, lex line = .ok ts → part ∈ statementRuns ts →
      (classify line part).recognized = true → WellNested part := by
  intro h
  have hlex : lex "Console.WriteLine(x];" = .ok [⟨.word "Console", ⟨0, 7⟩⟩, ⟨.dot, ⟨7, 8⟩⟩,
      ⟨.word "WriteLine", ⟨8, 17⟩⟩, ⟨.opening .round, ⟨17, 18⟩⟩, ⟨.word "x", ⟨18, 19⟩⟩,
      ⟨.closing .square, ⟨19, 20⟩⟩, ⟨.semicolon, ⟨20, 21⟩⟩] := by cbv
  have := h _ _ [⟨.word "Console", ⟨0, 7⟩⟩, ⟨.dot, ⟨7, 8⟩⟩, ⟨.word "WriteLine", ⟨8, 17⟩⟩,
    ⟨.opening .round, ⟨17, 18⟩⟩, ⟨.word "x", ⟨18, 19⟩⟩, ⟨.closing .square, ⟨19, 20⟩⟩] hlex
    (by decide) (by decide)
  exact absurd this (by decide)

/-- A recognized statement is balanced, and it is well nested exactly if no bracket is
closed by one of another shape. -/
theorem wellNested_iff_of_recognized {line : String} {part : List Token}
    (h : (classify line part).recognized = true) :
    balanced part = true ∧ (WellNested part ↔ SameShapes part) :=
  ⟨balanced_of_recognized h, wellNested_iff (balanced_of_recognized h)⟩

/-- A call whose arguments, which nothing looks at, close a brace by a square bracket. -/
theorem wellNested_iff_of_recognized_call :
    let part : List Token := [⟨.word "c", ⟨0, 1⟩⟩, ⟨.dot, ⟨1, 2⟩⟩, ⟨.word "Run", ⟨2, 5⟩⟩,
      ⟨.opening .round, ⟨5, 6⟩⟩, ⟨.opening .curly, ⟨6, 7⟩⟩, ⟨.closing .square, ⟨7, 8⟩⟩,
      ⟨.closing .round, ⟨8, 9⟩⟩]
    (classify "c.Run(\x7b])" part).recognized = true ∧
      (balanced part = true ∧ (WellNested part ↔ SameShapes part)) ∧ ¬WellNested part := by
  intro part
  have h : (classify "c.Run(\x7b])" part).recognized = true := by decide
  exact ⟨h, wellNested_iff_of_recognized h, by decide⟩

end SnippetConsole
