import SnippetConsole.Proofs.Decimal.Natural
import SnippetConsole.Proofs.Machine.Execution

/-!
# The size of an array

The size of an array is a value first and an index only then. A whole number above
the limit is refused as long as it is an index; a number that is too large to be one
asks for no array.

* `Machine.execute_makeArray_iff` — which of the sizes above the limit are refused.
* `Machine.not_refused_of_greatest` — a size above the limit for which nothing happens.
-/

namespace SnippetConsole

open Decimal

/-- The array asked for by a size that is a whole number. -/
theorem ArrayInit.wanted?_sized {store : Store} {size : Expr} {x : Float} {n : Nat}
    (hvalue : size.value store = .number x) (hn : (Double.ofFloat x).rat? = some (n : ℚ)) :
    (sized size).wanted? store = if n ≤ greatestIndex then some (.unset n) else none := by
  rw [wanted?, hvalue]
  show (index? x).map Slots.unset = _
  rw [index?_of_rat? hn]
  split <;> rfl

namespace Machine

variable {m : Machine} {name : String} {size : Expr} {x : Float} {n : Nat}

theorem execute_makeArray_of_le (hexec : m.executed < m.limits.statements)
    (hvalue : size.value m.store = .number x) (hn : (Double.ofFloat x).rat? = some (n : ℚ))
    (hlong : m.limits.arrayLength < n) (hle : n ≤ greatestIndex) :
    m.execute (.makeArray name (.sized size)) =
      (m.tick, some (.arrayTooLarge n m.limits.arrayLength)) := by
  refine (Step.refused hexec ?_).execute
  rw [Statement.effect_makeArray, ArrayInit.wanted?_sized hvalue hn, if_pos hle]
  simp only [Slots.size_unset, if_neg (Nat.not_le.2 hlong)]

theorem execute_makeArray_of_lt (hexec : m.executed < m.limits.statements)
    (hvalue : size.value m.store = .number x) (hn : (Double.ofFloat x).rat? = some (n : ℚ))
    (hlt : greatestIndex < n) :
    m.execute (.makeArray name (.sized size)) = (m.tick, none) := by
  refine (Step.idle hexec ?_).execute
  rw [Statement.effect_makeArray, ArrayInit.wanted?_sized hvalue hn, if_neg (Nat.not_le.2 hlt)]

/-- A whole number above the limit is refused exactly if it can be an index. Beyond
the greatest index the statement is counted and does nothing. -/
theorem execute_makeArray_iff (hexec : m.executed < m.limits.statements)
    (hvalue : size.value m.store = .number x) (hn : (Double.ofFloat x).rat? = some (n : ℚ))
    (hlong : m.limits.arrayLength < n) :
    (m.execute (.makeArray name (.sized size)) =
        (m.tick, some (.arrayTooLarge n m.limits.arrayLength)) ↔ n ≤ greatestIndex) ∧
      (greatestIndex < n → m.execute (.makeArray name (.sized size)) = (m.tick, none)) := by
  refine ⟨⟨?_, execute_makeArray_of_le hexec hvalue hn hlong⟩,
    execute_makeArray_of_lt hexec hvalue hn⟩
  intro hrefused
  by_contra hlt
  rw [execute_makeArray_of_lt hexec hvalue hn (Nat.lt_of_not_le hlt)] at hrefused
  cases hrefused

/-- A million slots are too many for a machine with the usual limits. -/
theorem execute_makeArray_iff_million :
    let m := new {}
    let size := Expr.of "1000000"
    m.executed < m.limits.statements ∧ size.value m.store = .number 1000000 ∧
      (Double.ofFloat 1000000).rat? = some ((1000000 : Nat) : ℚ) ∧
      m.limits.arrayLength < 1000000 ∧
      m.execute (.makeArray "huge" (.sized size)) =
        (m.tick, some (.arrayTooLarge 1000000 100000)) := by
  intro m size
  have hexec : m.executed < m.limits.statements := by decide
  have hvalue : size.value m.store = .number 1000000 := by decide +kernel
  have hn : (Double.ofFloat 1000000).rat? = some ((1000000 : Nat) : ℚ) :=
    Double.natural?_eq_some_iff.1 (by decide +kernel)
  have hlong : m.limits.arrayLength < 1000000 := by decide
  have hiff : m.execute (.makeArray "huge" (.sized size)) =
      (m.tick, some (.arrayTooLarge 1000000 100000)) ↔ 1000000 ≤ greatestIndex :=
    (execute_makeArray_iff hexec hvalue hn hlong).1
  exact ⟨hexec, hvalue, hn, hlong, hiff.2 (by decide)⟩

/-- The number behind the greatest index is no size, and nothing happens. -/
theorem not_refused_of_greatest :
    let m := new {}
    let size := Expr.of "4294967296"
    m.executed < m.limits.statements ∧ size.value m.store = .number 4294967296 ∧
      (Double.ofFloat 4294967296).rat? = some ((4294967296 : Nat) : ℚ) ∧
      m.limits.arrayLength < 4294967296 ∧ 4294967296 < 2 ^ 53 ∧
      m.execute (.makeArray "huge" (.sized size)) = (m.tick, none) := by
  intro m size
  have hexec : m.executed < m.limits.statements := by decide
  have hvalue : size.value m.store = .number 4294967296 := by decide +kernel
  have hn : (Double.ofFloat 4294967296).rat? = some ((4294967296 : Nat) : ℚ) :=
    Double.natural?_eq_some_iff.1 (by decide +kernel)
  exact ⟨hexec, hvalue, hn, by decide, by decide,
    execute_makeArray_of_lt hexec hvalue hn (by decide)⟩

end Machine

end SnippetConsole
