/-!
# Classes of characters given by ranges

A class of characters is a list of closed ranges of code points; a character
belongs to it when one of the ranges holds its code point.
-/

namespace SnippetConsole.Text

/-- Closed ranges of code points, in increasing order. -/
abbrev Ranges := List (Nat × Nat)

/-- One of the ranges holds the character. -/
def Ranges.holds (ranges : Ranges) (c : Char) : Bool :=
  ranges.any fun (low, high) => low ≤ c.toNat && c.toNat ≤ high

theorem Ranges.holds_eq_true_iff {ranges : Ranges} {c : Char} :
    ranges.holds c = true ↔ ∃ r ∈ ranges, r.1 ≤ c.toNat ∧ c.toNat ≤ r.2 := by
  simp [Ranges.holds, List.any_eq_true]

end SnippetConsole.Text
