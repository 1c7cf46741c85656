import Mathlib.Data.Rat.Cast.Order
import Mathlib.Algebra.Order.Field.Power
import Mathlib.Tactic.Linarith
import SnippetConsole.Value

/-!
# Doubles as rational numbers

A finite double is a rational number. The natural number of a double is read off
its parts by shifting the mantissa; here it is the number that the double is equal
to, whatever the parts.

* `Decimal.Double.natural?_eq_some_iff` — the shifted mantissa is the rational value.
* `index?_eq_some_iff` — an index is a natural number up to the greatest index.
-/

namespace SnippetConsole

namespace Decimal.Double

/-- The rational number equal to a double that is finite. -/
def rat? : Double → Option ℚ
  | .finite negative mantissa exponent =>
    some ((if negative then -1 else 1) * mantissa * 2 ^ exponent)
  | .infinite _ => none
  | .notANumber => none

/-- A positive mantissa under a minus sign is no natural number. -/
theorem rat?_ne_of_negative {mantissa : Nat} (h : mantissa ≠ 0) (exponent : Int) (n : Nat) :
    (finite true mantissa exponent).rat? ≠ some (n : ℚ) := by
  have hmantissa : (0 : ℚ) < mantissa := Nat.cast_pos.2 (Nat.pos_of_ne_zero h)
  have hpos : (0 : ℚ) < mantissa * 2 ^ exponent := by positivity
  have hnat : (0 : ℚ) ≤ n := n.cast_nonneg
  intro heq
  simp only [rat?, if_true, Option.some.injEq] at heq
  linarith

/-- Without a minus sign, or with the mantissa zero, the sign does not matter. -/
theorem rat?_of_not_negative {negative : Bool} {mantissa : Nat}
    (h : ¬(negative = true ∧ mantissa ≠ 0)) (exponent : Int) :
    (finite negative mantissa exponent).rat? = some ((mantissa : ℚ) * 2 ^ exponent) := by
  cases negative with
  | false => simp [rat?]
  | true =>
    obtain rfl : mantissa = 0 := by simpa using h
    simp [rat?]

theorem natural?_eq_some_iff {d : Double} {n : Nat} :
    d.natural? = some n ↔ d.rat? = some (n : ℚ) := by
  cases d with
  | infinite | notANumber => simp [natural?, rat?]
  | finite negative mantissa exponent =>
    by_cases hsign : negative = true ∧ mantissa ≠ 0
    · obtain ⟨rfl, hmantissa⟩ := hsign
      simp only [natural?, ne_eq, hmantissa, not_false_eq_true, and_self, if_true, reduceCtorEq,
        rat?_ne_of_negative hmantissa]
    · rw [rat?_of_not_negative hsign]
      simp only [natural?, if_neg hsign, Nat.pow_eq]
      by_cases hexponent : 0 ≤ exponent
      · -- the mantissa is shifted up
        obtain ⟨k, rfl⟩ := Int.eq_ofNat_of_zero_le hexponent
        simp only [if_pos hexponent, Int.toNat_natCast, Option.some.injEq, zpow_natCast]
        exact_mod_cast Iff.rfl
      · -- the mantissa is shifted down, as far as it has zeros at its end
        obtain ⟨k, rfl⟩ : ∃ k : Nat, exponent = -k := ⟨exponent.natAbs, by omega⟩
        have hunit : (2 : ℚ) ^ k ≠ 0 := by positivity
        have hvalue : (mantissa : ℚ) * 2 ^ (-(k : Int)) = n ↔ mantissa = n * 2 ^ k := by
          rw [zpow_neg, zpow_natCast, ← div_eq_mul_inv, div_eq_iff hunit]
          exact_mod_cast Iff.rfl
        simp only [if_neg hexponent, Int.natAbs_neg, Int.natAbs_natCast, Option.some.injEq, hvalue]
        split
        · next hdvd =>
          rw [Option.some.injEq, Nat.div_eq_iff_eq_mul_left (by positivity)
            (Nat.dvd_of_mod_eq_zero hdvd)]
        · next hdvd =>
          simp only [reduceCtorEq, false_iff]
          rintro rfl
          exact hdvd (Nat.mul_mod_left n _)

end Decimal.Double

theorem index?_eq_some_iff {x : Float} {n : Nat} :
    index? x = some n ↔ (Decimal.Double.ofFloat x).rat? = some (n : ℚ) ∧ n ≤ greatestIndex := by
  simp only [index?, Option.filter_eq_some_iff, Decimal.Double.natural?_eq_some_iff,
    decide_eq_true_eq]

/-- A natural number is an index only up to the greatest one. -/
theorem index?_of_rat? {x : Float} {n : Nat}
    (h : (Decimal.Double.ofFloat x).rat? = some (n : ℚ)) :
    index? x = if n ≤ greatestIndex then some n else none := by
  split
  · next hle => exact index?_eq_some_iff.2 ⟨h, hle⟩
  · next hlt =>
    rw [Option.eq_none_iff_forall_ne_some]
    intro k hk
    obtain ⟨hrat, hle⟩ := index?_eq_some_iff.1 hk
    rw [h, Option.some.injEq, Nat.cast_inj] at hrat
    exact hlt (hrat ▸ hle)

end SnippetConsole
