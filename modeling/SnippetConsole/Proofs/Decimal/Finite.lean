import Mathlib
import SnippetConsole.Decimal.Layout

/-!
# The digits of a finite double

A double that is finite has a sign, a mantissa and an exponent of two, and unless
the mantissa is zero the shortest decimal that reads back is not zero either: the
interval that reads back lies above zero, and the walk over the decimal grids ends
at the latest on one that holds the double itself. So its digits do not start with
a zero.

* `ofFloat_of_isFinite` — the parts of a finite double.
* `shortest_pos` — the shortest decimal of a double that is not zero.
* `head_digits` — the first digit of a number that is not zero.
-/

namespace SnippetConsole.Decimal

/-! ## The parts -/

theorem Double.ofBits_cases (bits : Nat) :
    (∃ negative mantissa exponent, ofBits bits = .finite negative mantissa exponent) ∨
      bits / mantissaUnit % 2048 = 2047 := by
  unfold ofBits
  split
  · exact .inl ⟨_, _, _, rfl⟩
  · next hall => exact .inr hall
  · exact .inl ⟨_, _, _, rfl⟩

open Float.Model Float.Model.UnpackedFloat in
/-- Only infinity and what is not a number have all bits of the exponent set. -/
theorem ofFloat_of_isFinite {x : Float} (h : x.isFinite = true) :
    ∃ negative mantissa exponent, Double.ofFloat x = .finite negative mantissa exponent := by
  refine (Double.ofBits_cases x.toBits.toNat).resolve_right fun hall => ?_
  have hexponent : @unpackExponent Format.binary64 x.toBits.toBitVec = -1#11 := by
    refine BitVec.eq_of_toNat_eq ?_
    rw [unpackExponent, BitVec.toNat_cast, BitVec.extractLsb_toNat, Nat.shiftRight_eq_div_pow]
    exact hall
  have hunpacked : x.toModel.unpack.isFinite = false := by
    show (UnpackedFloat.unpack Format.binary64 x.toBits.toBitVec).isFinite = false
    rw [UnpackedFloat.unpack]
    simp only [hexponent, if_true]
    split <;> rfl
  exact Bool.noConfusion (hunpacked.symm.trans h)

/-! ## The shortest decimal -/

theorem nearer_cases (tie : Tie) (value whole : Nat) :
    nearer tie value whole = value / whole ∨ nearer tie value whole = value / whole + 1 := by
  cases tie <;> grind [nearer]

section

variable {mantissa : Nat} (hmantissa : 0 < mantissa) (exponent : Int)
include hmantissa

/-- Zero lies below the interval that reads back. -/
theorem readsBack_zero (k : Int) :
    readsBack mantissa exponent (Scale.of exponent k) 0 = false := by
  have hunit : 0 < (Scale.of exponent k).unit := by
    exact Nat.mul_pos (Nat.pow_pos (by decide)) (Nat.pow_pos (by decide))
  have hgap : lowerGap mantissa exponent ≤ 2 := by
    unfold lowerGap
    split <;> decide
  have hlow : 0 < (4 * mantissa - lowerGap mantissa exponent) * (Scale.of exponent k).unit :=
    Nat.mul_pos (by omega) hunit
  simp only [readsBack, Nat.mul_zero, Nat.zero_mul]
  split
  · simp [Nat.not_le.2 hlow]
  · simp

omit hmantissa in
/-- The point that a grid offers reads back. -/
theorem readsBack_of_gridPoint? {tie : Tie} {k : Int} {c : Nat}
    (h : gridPoint? tie mantissa exponent k = some c) :
    readsBack mantissa exponent (Scale.of exponent k) c = true := by
  simp only [gridPoint?] at h
  split at h
  · next hbelow habove =>
    obtain rfl := Option.some.inj h
    rcases nearer_cases tie (mantissa * (Scale.of exponent k).unit) (Scale.of exponent k).whole
      with hc | hc
    · rw [hc]
      exact hbelow
    · rw [hc]
      exact habove
  · next hbelow _ =>
    obtain rfl := Option.some.inj h
    exact hbelow
  · next _ habove =>
    obtain rfl := Option.some.inj h
    exact habove
  · exact absurd h (by simp)

/-- On a grid as fine as the double and its last place, the double is not zero. -/
theorem scaled_pos {k : Int} (hk : k ≤ min exponent 0) :
    0 < mantissa * (Scale.of exponent k).unit / (Scale.of exponent k).whole := by
  have hwhole : (Scale.of exponent k).whole = 2 ^ (-exponent).toNat := by
    have hk0 : k.toNat = 0 := by omega
    simp [Scale.of, hk0]
  have hunit : 10 ^ (-k).toNat ≤ (Scale.of exponent k).unit :=
    Nat.le_mul_of_pos_left _ (Nat.pow_pos (by decide))
  have hle : 2 ^ (-exponent).toNat ≤ 10 ^ (-k).toNat :=
    calc 2 ^ (-exponent).toNat
      _ ≤ 2 ^ (-k).toNat := Nat.pow_le_pow_right (by decide) (by omega)
      _ ≤ 10 ^ (-k).toNat := Nat.pow_le_pow_left (by decide) _
  rw [hwhole]
  refine Nat.div_pos ?_ (Nat.pow_pos (by decide))
  calc 2 ^ (-exponent).toNat
    _ ≤ (Scale.of exponent k).unit := hle.trans hunit
    _ ≤ mantissa * (Scale.of exponent k).unit := Nat.le_mul_of_pos_left _ hmantissa

theorem shortestFrom_pos (tie : Tie) {steps : Nat} {k : Int} (hk : k - steps ≤ min exponent 0) :
    0 < (shortestFrom tie mantissa exponent steps k).coefficient := by
  induction steps generalizing k with
  | zero => exact scaled_pos hmantissa exponent (by simpa using hk)
  | succ steps ih =>
    rw [shortestFrom]
    split
    · next c hc =>
      have hreads := readsBack_of_gridPoint? exponent hc
      refine Nat.pos_of_ne_zero fun hzero => ?_
      obtain rfl : c = 0 := hzero
      exact Bool.noConfusion ((readsBack_zero hmantissa exponent k).symm.trans hreads)
    · exact ih (by push_cast at hk; omega)

theorem shortest_pos (tie : Tie) : 0 < (shortest tie mantissa exponent).coefficient :=
  shortestFrom_pos hmantissa exponent tie (by omega)

end

/-! ## The first digit -/

theorem head_digits {n : Nat} (h : 0 < n) : (digits n).head? ≠ some '0' := by
  induction n using Nat.strongRecOn with
  | ind n ih =>
    rw [digits, Nat.toDigits_eq_if (by decide)]
    split
    · rw [List.head?_cons, ne_eq, Option.some.injEq, Nat.digitChar_eq_zero]
      exact h.ne'
    · next hle =>
      rw [List.head?_append, Option.or_of_isSome (List.isSome_head?.2 Nat.toDigits_ne_nil)]
      exact ih (n / 10) (Nat.div_lt_self h (by decide)) (by omega)

end SnippetConsole.Decimal
