import SnippetConsole.Decimal.Layout

/-!
# The characters of a written number

Every layout writes a finite number in digits, a point, signs and the mark of an
exponent. Other characters come only from the names that the layout has for the
numbers that are not finite.

* `Layout.write_cases` — a number is written in these characters or by its name.
-/

namespace SnippetConsole.Decimal

/-- A digit, a point, a sign or the mark of an exponent. -/
def isNumeric (c : Char) : Bool := c.isDigit || c ∈ ['.', '-', '+', 'e']

/-- The text of a finite number: nothing but digits, points, signs and marks. -/
def Numeric (cs : List Char) : Prop := ∀ c ∈ cs, isNumeric c = true

namespace Numeric

variable {cs ds : List Char}

theorem append (hcs : Numeric cs) (hds : Numeric ds) : Numeric (cs ++ ds) := by
  intro c hc
  rcases List.mem_append.1 hc with hc | hc
  · exact hcs c hc
  · exact hds c hc

theorem cons {c : Char} (hc : isNumeric c = true) (hcs : Numeric cs) : Numeric (c :: cs) :=
  List.forall_mem_cons.2 ⟨hc, hcs⟩

theorem subset (hcs : Numeric cs) (h : ds ⊆ cs) : Numeric ds := fun c hc => hcs c (h hc)

end Numeric

theorem numeric_nil : Numeric [] := fun _ hc => absurd hc List.not_mem_nil

theorem numeric_zeros (n : Nat) : Numeric (zeros n) := by
  intro c hc
  obtain rfl := List.eq_of_mem_replicate hc
  rfl

theorem numeric_digits (n : Nat) : Numeric (digits n) := by
  intro c hc
  have hdigit : c.isDigit = true := Nat.isDigit_of_mem_toDigits (by decide) (by decide) hc
  rw [isNumeric, hdigit, Bool.true_or]

section

variable {ds : List Char} (hds : Numeric ds) (point : Int)
include hds

theorem numeric_placePoint (wholePoint : Bool) : Numeric (placePoint wholePoint ds point) := by
  unfold placePoint
  split
  · have hlead : Numeric ['0', '.'] := (numeric_nil.cons rfl).cons rfl
    exact (hlead.append (numeric_zeros _)).append hds
  · split
    · have hbefore := hds.subset (List.take_subset point.toNat ds)
      have hafter := hds.subset (List.drop_subset point.toNat ds)
      exact hbefore.append (hafter.cons rfl)
    · refine (hds.append (numeric_zeros _)).append ?_
      split
      · exact (numeric_nil.cons rfl).cons rfl
      · exact numeric_nil

theorem numeric_placeExponent : Numeric (placeExponent ds point) := by
  have hfirst := hds.subset (List.take_subset 1 ds)
  have hrest := hds.subset (List.drop_subset 1 ds)
  unfold placeExponent
  refine ((hfirst.append ?_).append ?_).append (numeric_digits _)
  · split
    · exact numeric_nil
    · exact hrest.cons rfl
  · refine .cons rfl (.cons ?_ numeric_nil)
    split <;> rfl

end

namespace Layout

variable (layout : Layout)

theorem numeric_magnitude (d : Scientific) : Numeric (layout.magnitude d) := by
  have hds := numeric_digits d.coefficient
  simp only [magnitude]
  split
  · exact numeric_placePoint hds _ _
  · split
    · exact numeric_placePoint hds _ _
    · exact numeric_placeExponent hds _

/-- A number is written in numeric characters, or by a name of the layout. -/
theorem write_cases (x : Float) : Numeric (layout.write x).toList ∨
    layout.write x ∈ [layout.positiveInfinity, layout.negativeInfinity, layout.notANumber] := by
  unfold write
  split
  · exact .inr (by simp)
  · exact .inr (by simp)
  · exact .inr (by simp)
  · refine .inl ?_
    rw [String.toList_ofList]
    refine Numeric.append ?_ ?_
    · split
      · exact numeric_nil.cons rfl
      · exact numeric_nil
    · split
      · exact numeric_placePoint (numeric_nil.cons rfl) _ _
      · exact numeric_magnitude layout _

end Layout

end SnippetConsole.Decimal
