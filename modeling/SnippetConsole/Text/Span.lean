import SnippetConsole.Text.Slice

/-!
# Spans

A span is a half-open range of bytes in one line.
-/

namespace SnippetConsole.Text

/-- The bytes from `start` up to, but not including, `stop`. -/
structure Span where
  start : Nat
  stop : Nat
  deriving DecidableEq, Repr

namespace Span

/-- The smallest span that covers both. -/
def merge (a b : Span) : Span := ⟨min a.start b.start, max a.stop b.stop⟩

/-- The text of the span, empty where the span has no slice. -/
def slice (span : Span) (text : String) : String :=
  String.ofList ((slice? span.start span.stop text.toList).getD [])

/-- A span is shown as its two ends with two dots between. -/
def shown (span : Span) : String := s!"{span.start}..{span.stop}"

theorem slice_append (a b c : List Char) :
    slice ⟨byteCount a, byteCount a + byteCount b⟩ (String.ofList (a ++ b ++ c)) =
      String.ofList b := by
  simp only [slice, String.toList_ofList, slice?_append, Option.getD_some]

theorem slice_isInfix (span : Span) (text : String) :
    (span.slice text).toList <:+: text.toList := by
  rw [slice, String.toList_ofList]
  cases h : slice? span.start span.stop text.toList with
  | none => exact List.nil_infix
  | some part => exact isInfix_of_slice? h

end Span

end SnippetConsole.Text
