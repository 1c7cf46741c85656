import Mathlib
import SnippetConsole.Decimal.Reading
import SnippetConsole.Proofs.Decimal.Natural

/-!
# Whole numbers as doubles

Digits without a fraction are read through the logical model of doubles: the
whole number is rounded to a mantissa of fifty-three bits and packed into a
word, and the word is unpacked again for every use. Below `2 ^ 53` nothing is
rounded; from there on the double is at least as great, or infinite.

* `Decimal.exists_normal_of_roundWithAccuracy`: what the rounding of a mantissa with
  more bits comes to.
* `Decimal.ofFloat_pack` and `Decimal.unpack_pack`: the parts of a packed double.
* `Decimal.rat?_ofScientific`: a whole number below `2 ^ 53` is exact.
* `Decimal.index?_ofDigits`: digits are an index up to the greatest index.
-/

namespace SnippetConsole

namespace Decimal

open Float.Model Float.Model.UnpackedFloat

variable {m k : Nat} {e : Int}

/-! ## Normal doubles -/

theorem log2_mul_pow (hm : m ≠ 0) (k : Nat) : (m * 2 ^ k).log2 = m.log2 + k := by
  refine (Nat.log2_eq_iff (by positivity)).2 ⟨?_, ?_⟩
  · rw [pow_add]
    exact Nat.mul_le_mul_right _ (Nat.log2_self_le hm)
  · rw [Nat.add_right_comm, pow_add]
    exact Nat.mul_lt_mul_of_pos_right Nat.lt_log2_self (by positivity)

/-- A mantissa with all its bits, and an exponent that is not too low for it. -/
structure Normal (mantissa : Nat) (exponent : Int) : Prop where
  lower : 2 ^ 52 ≤ mantissa
  upper : mantissa < 2 ^ 53
  lowest : -1074 ≤ exponent

theorem Normal.pos (h : Normal m e) : 0 < m := Nat.lt_of_lt_of_le (by decide) h.lower

theorem Normal.log2 (h : Normal m e) : m.log2 = 52 :=
  (Nat.log2_eq_iff h.pos.ne').2 ⟨h.lower, h.upper⟩

theorem Normal.of_log2 (hm : m ≠ 0) (hlog : m.log2 = 52) (he : -1074 ≤ e) : Normal m e :=
  have ⟨hlower, hupper⟩ := (Nat.log2_eq_iff hm).1 hlog
  ⟨hlower, hupper, he⟩

/-! ## Rounding -/

theorem targetExponent_eq (m : Nat) (e : Int) :
    Format.binary64.targetExponent (totalExponent m e) = max (m.log2 + e - 52) (-1074) := by
  have hmin : Format.binary64.minExponent = -1074 := rfl
  have hbits : Format.binary64.mantissaBits = 53 := rfl
  rw [Format.targetExponent, hmin, hbits, totalExponent]
  congr 1
  omega

theorem mantissa_shift (em : ExtendedMantissa) (k : Nat) :
    (em >>> k).mantissa = em.mantissa / 2 ^ k := by
  show (Nat.repeat ExtendedMantissa.shiftRightOne k em).mantissa = _
  induction k with
  | zero => simp [Nat.repeat]
  | succ k ih =>
    show (Nat.repeat ExtendedMantissa.shiftRightOne k em).mantissa / 2 = _
    rw [ih, Nat.div_div_eq_div_mul, Nat.pow_succ]

theorem shift_exact (m k : Nat) :
    ExtendedMantissa.mk (m * 2 ^ k) false false >>> k = ⟨m, false, false⟩ := by
  show Nat.repeat ExtendedMantissa.shiftRightOne k _ = _
  induction k generalizing m with
  | zero => simp [Nat.repeat]
  | succ k ih =>
    have hpow : m * 2 ^ (k + 1) = m * 2 * 2 ^ k := by rw [pow_succ, mul_assoc, mul_comm 2]
    rw [Nat.repeat, hpow, ih]
    simp [ExtendedMantissa.shiftRightOne]

theorem shiftToTargetExponent_of_exact (h : Normal m (e + k)) :
    shiftToTargetExponent Format.binary64 (m * 2 ^ k) e .exact = (⟨m, false, false⟩, e + k) := by
  have hlog : (m * 2 ^ k).log2 = 52 + k := by rw [log2_mul_pow h.pos.ne', h.log2]
  have htarget : Format.binary64.targetExponent (totalExponent (m * 2 ^ k) e) = e + k := by
    have := h.lowest
    rw [targetExponent_eq, hlog]
    omega
  have hamount : (e + k - e).toNat = k := by omega
  rw [shiftToTargetExponent, htarget, shiftToExponent, hamount]
  exact congrArg (·, e + (k : Int)) (shift_exact m k)

/-- The first shift is rounded, and the rounded mantissa may shift once more. -/
theorem roundWithAccuracy_eq {m' j : Nat} {sign : Sign} {em : ExtendedMantissa} {e' : Int}
    (h : shiftToTargetExponent Format.binary64 m e .exact = (em, e'))
    (hrounded : em.roundedMantissa = m' * 2 ^ j) (hnormal : Normal m' (e' + j)) :
    roundWithAccuracy Format.binary64 sign m e .exact =
      .finite sign m' (e' + j) hnormal.pos := by
  simp only [roundWithAccuracy, h, hrounded, shiftToTargetExponent_of_exact hnormal]
  exact dif_neg hnormal.pos.ne'

theorem roundWithAccuracy_of_exact (h : Normal m (e + k)) (sign : Sign) :
    roundWithAccuracy Format.binary64 sign (m * 2 ^ k) e .exact =
      .finite sign m (e + k) h.pos := by
  have h' : Normal m (e + k + (0 : Nat)) := by simpa using h
  have hrounded : (ExtendedMantissa.mk m false false).roundedMantissa = m * 2 ^ 0 :=
    (Nat.mul_one m).symm
  simpa using roundWithAccuracy_eq (shiftToTargetExponent_of_exact h) hrounded h'

theorem roundWithAccuracy_of_normal (h : Normal m e) (sign : Sign) :
    roundWithAccuracy Format.binary64 sign m e .exact = .finite sign m e h.pos := by
  have h' : Normal m (e + (0 : Nat)) := by simpa using h
  simpa using roundWithAccuracy_of_exact h' sign

theorem roundedMantissa_cases (em : ExtendedMantissa) :
    em.roundedMantissa = em.mantissa ∨ em.roundedMantissa = em.mantissa + 1 := by
  obtain ⟨m, roundBit, stickyBit⟩ := em
  cases roundBit <;> cases stickyBit
  · exact .inl rfl
  · exact .inl rfl
  · -- a tie goes to the even mantissa
    show m + m % 2 = m ∨ m + m % 2 = m + 1
    omega
  · exact .inr rfl

/-- A mantissa with more bits than a double has is cut, and rounded up or left. -/
theorem exists_normal_of_roundWithAccuracy (hlog : 52 ≤ m.log2) (he : -1074 ≤ m.log2 + e - 52)
    (sign : Sign) :
    ∃ m' e', ∃ h : Normal m' e', m.log2 + e - 52 ≤ e' ∧
      roundWithAccuracy Format.binary64 sign m e .exact = .finite sign m' e' h.pos := by
  have hm : m ≠ 0 := by
    rintro rfl
    simp at hlog
  obtain ⟨k, hk⟩ := Nat.exists_eq_add_of_le hlog
  have hfirst : shiftToTargetExponent Format.binary64 m e .exact =
      (ExtendedMantissa.mk m false false >>> k, e + k) := by
    have hamount : (e + k - e).toNat = k := by omega
    have htarget : Format.binary64.targetExponent (totalExponent m e) = e + k := by
      rw [targetExponent_eq]
      omega
    rw [shiftToTargetExponent, htarget, shiftToExponent, hamount]
    rfl
  obtain ⟨em, hem⟩ : ∃ em, em = ExtendedMantissa.mk m false false >>> k := ⟨_, rfl⟩
  rw [← hem] at hfirst
  have hmantissa : em.mantissa = m / 2 ^ k := by rw [hem, mantissa_shift]
  have hlower : 2 ^ 52 ≤ em.mantissa := by
    rw [hmantissa, Nat.le_div_iff_mul_le (by positivity), ← pow_add, ← hk]
    exact Nat.log2_self_le hm
  have hupper : em.mantissa < 2 ^ 53 := by
    rw [hmantissa, Nat.div_lt_iff_lt_mul (by positivity), ← pow_add, Nat.succ_add 52, ← hk]
    exact Nat.lt_log2_self
  have hcases := roundedMantissa_cases em
  obtain ⟨m', j, hrounded, hnormal⟩ :
      ∃ m' j : Nat, em.roundedMantissa = m' * 2 ^ j ∧ Normal m' (e + k + j) := by
    by_cases hcarry : em.roundedMantissa = 2 ^ 53
    · -- rounded up to one bit more, it is halved
      exact ⟨2 ^ 52, 1, by omega, ⟨le_refl _, by omega, by omega⟩⟩
    · exact ⟨em.roundedMantissa, 0, (Nat.mul_one _).symm, ⟨by omega, by omega, by omega⟩⟩
  exact ⟨m', _, hnormal, by omega, roundWithAccuracy_eq hfirst hrounded hnormal⟩

/-! ## Bits -/

theorem toNat_append_eq_add {v w : Nat} (a : BitVec v) (b : BitVec w) :
    (a ++ b).toNat = a.toNat * 2 ^ w + b.toNat := by
  rw [BitVec.toNat_append, ← Nat.shiftLeft_add_eq_or_of_lt b.isLt, Nat.shiftLeft_eq]

theorem toNat_packComponents (exponent : BitVec 11) (mantissa : BitVec 52) :
    (packComponents Format.binary64 .positive exponent mantissa).toNat =
      exponent.toNat * 2 ^ 52 + mantissa.toNat := by
  rw [packComponents, toNat_append_eq_add, toNat_append_eq_add]
  show (0 * 2 ^ 11 + exponent.toNat) * 2 ^ 52 + mantissa.toNat = _
  rw [Nat.zero_mul, Nat.zero_add]

theorem ofBits_packComponents {exponent : BitVec 11} (mantissa : BitVec 52)
    (h : exponent.toNat ≠ 0) :
    Double.ofBits (packComponents Format.binary64 .positive exponent mantissa).toNat =
      if exponent.toNat = 2047 then
        if mantissa.toNat = 0 then .infinite false else .notANumber
      else .finite false (2 ^ 52 + mantissa.toNat) (exponent.toNat - 1075) := by
  have hmantissa := mantissa.isLt
  have hexponent := exponent.isLt
  obtain ⟨bits, hbits⟩ : ∃ bits, bits = exponent.toNat * 2 ^ 52 + mantissa.toNat := ⟨_, rfl⟩
  have hpacked : (packComponents Format.binary64 .positive exponent mantissa).toNat = bits := by
    rw [toNat_packComponents, hbits]
  have hsign : bits / 0x8000000000000000 % 2 = 0 := by omega
  have hlow : bits % Double.mantissaUnit = mantissa.toNat := by
    rw [Double.mantissaUnit]
    omega
  have hhigh : bits / Double.mantissaUnit % 2048 = exponent.toNat := by
    rw [Double.mantissaUnit]
    omega
  rw [hpacked, Double.ofBits, hsign, hlow, hhigh]
  split
  · next hzero => exact absurd hzero h
  · next hall => rw [if_pos hall]; rfl
  · next hne hnot =>
    rw [if_neg hnot]
    congr 1
    rw [Double.lowestExponent]
    omega

theorem unpackSign_packComponents (exponent : BitVec 11) (mantissa : BitVec 52) :
    unpackSign (packComponents Format.binary64 .positive exponent mantissa) = 0#1 := by
  have hexponent := exponent.isLt
  have hmantissa := mantissa.isLt
  refine BitVec.eq_of_toNat_eq ?_
  rw [unpackSign, BitVec.toNat_cast, BitVec.extractLsb_toNat, toNat_packComponents,
    Nat.shiftRight_eq_div_pow]
  show _ / 2 ^ 63 % 2 ^ 1 = 0
  omega

/-- The bits of a normal double; above the greatest one they are those of infinity. -/
theorem pack_of_normal (h : Normal m e) :
    UnpackedFloat.pack Format.binary64 (.finite .positive m e h.pos) =
      if e ≤ 971 then
        packComponents Format.binary64 .positive (BitVec.ofNat 11 (e + 1075).toNat)
          (BitVec.ofNat 52 m)
      else packComponents Format.binary64 .positive (-1#11) 0#52 := by
  have hlowest := h.lowest
  have hbiased : (e + Format.binary64.exponentBias +
      Format.binary64.mantissaBitsWithoutImplicit).toNat = (e + 1075).toNat := by
    show (e + (1023 : Nat) + (52 : Nat)).toNat = (e + 1075).toNat
    omega
  have hbits : m.log2 + 1 = Format.binary64.mantissaBits := by
    rw [h.log2]
    rfl
  simp only [UnpackedFloat.pack, hbiased, hbits, if_true]
  by_cases he : e ≤ 971
  · rw [if_pos he, if_neg (by show ¬2 ^ 11 ≤ _; omega)]
  · rw [if_neg he, if_pos (by show 2 ^ 11 ≤ _; omega)]
    rfl

theorem toNat_biased (h : Normal m e) (he : e ≤ 971) :
    ((BitVec.ofNat 11 (e + 1075).toNat).toNat : Int) = e + 1075 := by
  have := h.lowest
  rw [BitVec.toNat_ofNat]
  omega

theorem toNat_fraction (h : Normal m e) : (BitVec.ofNat 52 m).toNat = m - 2 ^ 52 := by
  have := h.lower
  have := h.upper
  rw [BitVec.toNat_ofNat]
  omega

/-- The parts of a packed double are those it was packed from. -/
theorem ofFloat_pack (h : Normal m e) :
    Double.ofFloat (.ofModel (.pack (.finite .positive m e h.pos))) =
      if e ≤ 971 then .finite false m e else .infinite false := by
  have hlowest := h.lowest
  have hlower := h.lower
  show Double.ofBits (UnpackedFloat.pack Format.binary64 (.finite .positive m e h.pos)).toNat = _
  rw [pack_of_normal h]
  split
  · next he =>
    have hexponent := toNat_biased h he
    rw [ofBits_packComponents _ (by omega), if_neg (by omega), toNat_fraction h, hexponent,
      Nat.add_sub_cancel' hlower, Int.add_sub_cancel]
  · have hexponent : (-1#11).toNat = 2047 := rfl
    have hfraction : (0#52).toNat = 0 := rfl
    rw [ofBits_packComponents 0#52 (by omega), if_pos hexponent, if_pos hfraction]

theorem unpack_pack (h : Normal m e) (he : e ≤ 971) :
    (pack (.finite .positive m e h.pos)).unpack = .finite .positive m e h.pos := by
  have hlowest := h.lowest
  have hlower := h.lower
  have hexponent := toNat_biased h he
  have hfraction := toNat_fraction h
  show UnpackedFloat.unpack Format.binary64
    (UnpackedFloat.pack Format.binary64 (.finite .positive m e h.pos)) = _
  rw [pack_of_normal h, if_pos he]
  have hall : BitVec.ofNat 11 (e + 1075).toNat ≠ -1#11 := by
    intro heq
    rw [heq] at hexponent
    have : (-1#11 : BitVec 11).toNat = 2047 := rfl
    omega
  have hzero : BitVec.ofNat 11 (e + 1075).toNat ≠ 0#11 := by
    intro heq
    rw [heq] at hexponent
    have : (0#11 : BitVec 11).toNat = 0 := rfl
    omega
  have hmantissa : (1#1 ++ BitVec.ofNat 52 m).toNat = m := by
    rw [toNat_append_eq_add, hfraction]
    show 1 * 2 ^ 52 + _ = m
    omega
  have hbias : ((Format.binary64.exponentBias : Nat) : Int) = 1023 := rfl
  simp only [UnpackedFloat.unpack, unpackMantissa_packComponents, unpackExponent_packComponents,
    unpackSign_packComponents, if_neg hall, if_neg hzero, hmantissa, hexponent]
  rw [finite.injEq]
  refine ⟨rfl, rfl, ?_⟩
  rw [hbias]
  omega

/-! ## Whole numbers -/

/-- A whole number with fewer bits is shifted up. -/
theorem normal_scaled {n : Nat} (hpos : 0 < n) (h : n < 2 ^ 53) :
    Normal (n * 2 ^ (52 - n.log2)) (n.log2 - 52) := by
  have hlog : n.log2 < 53 := (Nat.log2_lt hpos.ne').2 h
  refine .of_log2 (by positivity) ?_ (by omega)
  rw [log2_mul_pow hpos.ne']
  omega

theorem toFloat_eq {n : Nat} (hpos : 0 < n) (h : n < 2 ^ 53) :
    n.toUInt64.toFloat =
      .ofModel (.pack (.finite .positive (n * 2 ^ (52 - n.log2)) (n.log2 - 52)
        (normal_scaled hpos h).pos)) := by
  have hnormal := normal_scaled hpos h
  have hlog : n.log2 < 53 := (Nat.log2_lt hpos.ne').2 h
  have hword : n.toUInt64.toNat = n := by
    rw [Nat.toUInt64_eq, UInt64.toNat_ofNat']
    omega
  have hsign : compare (n : Int) 0 = .gt := compare_gt_iff_gt.2 (by omega)
  have htarget : Format.binary64.targetExponent (totalExponent n 0) = n.log2 - 52 := by
    rw [targetExponent_eq]
    omega
  have hamount : (0 - ((n.log2 : Int) - 52)).toNat = 52 - n.log2 := by omega
  have hexponent : (0 : Int) - (52 - n.log2 : Nat) = n.log2 - 52 := by omega
  have hround := roundWithAccuracy_of_normal hnormal .positive
  show Float.ofModel (.pack (ofNat Format.binary64 n.toUInt64.toNat)) = _
  simp only [hword, UnpackedFloat.ofNat, UnpackedFloat.ofInt, UnpackedFloat.normalize, hsign,
    Int.toNat_natCast, UnpackedFloat.round, htarget, decreaseExponent, hamount, hexponent,
    Nat.shiftLeft_eq, hround]

theorem unpack_one : (Float.Model.ofBits 0x3FF0000000000000).unpack =
    .finite .positive (2 ^ 52) (-52) (by decide) := rfl

theorem ofScientific_of_lt {n : Nat} (hpos : 0 < n) (h : n < 2 ^ 53) :
    Float.ofScientific n false 0 =
      .ofModel (.pack (.finite .positive (n * 2 ^ (52 - n.log2)) (n.log2 - 52)
        (normal_scaled hpos h).pos)) := by
  have hnormal := normal_scaled hpos h
  have hlog : n.log2 < 53 := (Nat.log2_lt hpos.ne').2 h
  have hexponent : (n.log2 : Int) - 52 + -52 + (52 : Nat) = n.log2 - 52 := by omega
  have hunpack := unpack_pack hnormal (by omega)
  have hround := @roundWithAccuracy_of_exact _ 52 (n.log2 - 52 + -52)
    (by rwa [hexponent]) .positive
  rw [Float.ofScientific, dif_pos ⟨h, Nat.zero_le _⟩, if_neg Bool.false_ne_true, toFloat_eq hpos h]
  show Float.ofModel (.pack (UnpackedFloat.mul Format.binary64
    (pack (.finite .positive (n * 2 ^ (52 - n.log2)) (n.log2 - 52) hnormal.pos)).unpack
    (Float.Model.ofBits 0x3FF0000000000000).unpack)) = _
  rw [hunpack, unpack_one]
  show Float.ofModel (.pack (roundWithAccuracy Format.binary64 .positive
    (n * 2 ^ (52 - n.log2) * 2 ^ 52) (n.log2 - 52 + -52) .exact)) = _
  rw [hround]
  simp only [hexponent]

/-- Without an exponent the exact number is rounded. -/
theorem ofScientific_model {n : Nat} (h : n ≠ 0) :
    UnpackedFloat.ofScientific Format.binary64 n 0 =
      roundWithAccuracy Format.binary64 .positive (n * 2 ^ 53) (-53) .exact := by
  have hhigh : ¬(0 : Int) > 2 ^ Format.binary64.exponentBits := by
    show ¬(0 : Int) > 2 ^ 11
    omega
  have hlow : ¬(0 : Int) < -((2 ^ Format.binary64.exponentBits : Int) + n.log2) := by
    show ¬(0 : Int) < -((2 ^ 11 : Int) + n.log2)
    omega
  have hshift : n <<< 53 * 1 = n * 2 ^ 53 := by rw [Nat.mul_one, Nat.shiftLeft_eq]
  rw [UnpackedFloat.ofScientific, dif_neg h, if_neg hhigh, if_neg hlow, if_pos le_rfl, ← hshift]
  rfl

theorem exists_ofScientific_of_le {n : Nat} (h : 2 ^ 53 ≤ n) :
    ∃ m e, ∃ hnormal : Normal m e, 1 ≤ e ∧
      Float.ofScientific n false 0 = .ofModel (.pack (.finite .positive m e hnormal.pos)) := by
  have hpos : n ≠ 0 := by omega
  have hlog : 53 ≤ n.log2 := (Nat.le_log2 hpos).2 h
  have hshift := log2_mul_pow hpos 53
  obtain ⟨m, e, hnormal, he, hround⟩ :=
    @exists_normal_of_roundWithAccuracy (n * 2 ^ 53) (-53) (by omega) (by omega) .positive
  refine ⟨m, e, hnormal, by omega, ?_⟩
  have hlarge : ¬(n < 2 ^ 53 ∧ 0 ≤ 22) := by omega
  rw [Float.ofScientific, dif_neg hlarge, if_neg Bool.false_ne_true]
  show Float.ofModel (.pack (UnpackedFloat.ofScientific Format.binary64 n 0)) = _
  rw [ofScientific_model hpos, hround]

theorem rat?_ofScientific {n : Nat} (h : n < 2 ^ 53) :
    (Double.ofFloat (Float.ofScientific n false 0)).rat? = some (n : ℚ) := by
  obtain rfl | hpos := Nat.eq_zero_or_pos n
  · have hzero : Double.ofFloat (Float.ofScientific 0 false 0) =
        .finite false 0 (-1074) := by decide +kernel
    rw [hzero]
    simp [Double.rat?]
  · have hlog : n.log2 < 53 := (Nat.log2_lt hpos.ne').2 h
    have hexponent : (n.log2 : Int) - 52 = -(52 - n.log2 : Nat) := by omega
    have hunit : (2 : ℚ) ^ (52 - n.log2) ≠ 0 := by positivity
    rw [ofScientific_of_lt hpos h, ofFloat_pack (normal_scaled hpos h), if_pos (by omega),
      Double.rat?, hexponent, zpow_neg, zpow_natCast]
    push_cast
    rw [one_mul, mul_assoc, mul_inv_cancel₀ hunit, mul_one]

theorem index?_ofScientific (n : Nat) :
    index? (Float.ofScientific n false 0) = if n ≤ greatestIndex then some n else none := by
  by_cases h : n < 2 ^ 53
  · exact index?_of_rat? (rat?_ofScientific h)
  · rw [not_lt] at h
    have hbeyond : ¬n ≤ greatestIndex := by
      rw [greatestIndex]
      omega
    obtain ⟨m, e, hnormal, he, heq⟩ := exists_ofScientific_of_le h
    rw [if_neg hbeyond, heq, Option.eq_none_iff_forall_ne_some]
    intro k hk
    obtain ⟨hrat, hle⟩ := index?_eq_some_iff.1 hk
    rw [ofFloat_pack hnormal] at hrat
    split at hrat
    · -- the mantissa alone is greater than an index
      have hmantissa : (2 : ℚ) ^ 52 ≤ m := by exact_mod_cast hnormal.lower
      have hunit : (1 : ℚ) ≤ 2 ^ e := one_le_zpow₀ one_le_two (by omega)
      have hindex : (k : ℚ) < 2 ^ 52 := by
        have : k < 2 ^ 52 := lt_of_le_of_lt hle (by decide)
        exact_mod_cast this
      simp only [Double.rat?, Bool.false_eq_true, if_false, one_mul, Option.some.injEq] at hrat
      nlinarith
    · cases hrat

/-- Digits without a fraction are an index up to the greatest one, however many they are. -/
theorem index?_ofDigits (ds : List Char) :
    index? (ofDigits ds []) =
      if natOfDigits ds ≤ greatestIndex then some (natOfDigits ds) else none := by
  have hscientific : ofDigits ds [] = Float.ofScientific (natOfDigits ds) false 0 := by
    rw [ofDigits, List.append_nil]
    rfl
  rw [hscientific, index?_ofScientific]

end Decimal

end SnippetConsole
