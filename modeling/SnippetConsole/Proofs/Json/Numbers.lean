import SnippetConsole.Json.Number
import SnippetConsole.Proofs.Decimal.Digits
import SnippetConsole.Proofs.Decimal.Finite

/-!
# The text of numbers

A number of JSON is a sign, digits without a zero in front, a fraction and an
exponent. The reader takes all of such a text where nothing follows that could
belong to it, and the text of every finite double is one, whatever the layout.

* `numeral?_append` — the text of a number is read up to its end.
* `numeralText_write` — finite doubles are written as numbers.
-/

namespace SnippetConsole.Json

open Decimal

/-! ## The parts of a number -/

/-- Digits without a zero in front of others. -/
structure Whole (ds : List Char) : Prop extends Digits ds where
  zero : ds.head? = some '0' → ds.length = 1

/-- Nothing, or a point with digits behind it. -/
inductive Fraction : List Char → Prop
  | none : Fraction []
  | point {ds : List Char} (hds : Digits ds) : Fraction ('.' :: ds)

/-- Nothing, or the mark of an exponent with its sign and digits. -/
inductive Power : List Char → Prop
  | none : Power []
  | mark {c : Char} {sign ds : List Char} (hc : c = 'e' ∨ c = 'E')
      (hsign : sign ∈ [[], ['+'], ['-']]) (hds : Digits ds) : Power (c :: (sign ++ ds))

/-- The text of a number. -/
inductive NumeralText : List Char → Prop
  | mk {sign whole fraction power : List Char} (hsign : sign ∈ [[], ['-']]) (hwhole : Whole whole)
      (hfraction : Fraction fraction) (hpower : Power power) :
      NumeralText (sign ++ (whole ++ (fraction ++ power)))

/-- What stands behind a number and does not belong to it. -/
def EndsNumeral (rest : List Char) : Prop :=
  ∀ c ∈ rest.head?, c.isDigit = false ∧ c ∉ ['.', 'e', 'E']

theorem endsNumeral_nil : EndsNumeral [] := fun _ hc => absurd hc (by simp)

theorem endsNumeral_cons {c : Char} (hdigit : c.isDigit = false) (hc : c ∉ ['.', 'e', 'E'])
    (rest : List Char) : EndsNumeral (c :: rest) := by
  intro d hd
  obtain rfl := Option.some.inj hd
  exact ⟨hdigit, hc⟩

/-! ## Reading -/

section

variable {cs rest : List Char}

theorem digits?_append (h : Digits cs) (hrest : ∀ c ∈ rest.head?, c.isDigit = false) :
    digits? (cs ++ rest) = some (cs, rest) := by
  obtain ⟨htake, hdrop⟩ := span_digits h hrest
  rw [digits?, htake, hdrop, if_neg h.ne_nil]

theorem whole?_append (h : Whole cs) (hrest : ∀ c ∈ rest.head?, c.isDigit = false) :
    whole? (cs ++ rest) = some (cs, rest) := by
  have hzero : ¬(cs.head? = some '0' ∧ 1 < cs.length) := by
    rintro ⟨hhead, hlength⟩
    exact hlength.ne' (h.zero hhead)
  simp [whole?, digits?_append h.toDigits hrest, hzero]

theorem fraction?_append (h : Fraction cs)
    (hrest : ∀ c ∈ rest.head?, c.isDigit = false ∧ c ≠ '.') :
    ∃ ds, fraction? (cs ++ rest) = some (ds, rest) := by
  cases h with
  | none =>
    refine ⟨[], ?_⟩
    rw [List.nil_append, fraction?]
    intro ds hds
    exact (hrest '.' (by rw [hds]; rfl)).2 rfl
  | point hds => exact ⟨_, digits?_append hds fun c hc => (hrest c hc).1⟩

theorem takeSign_append {sign ds : List Char} (hsign : sign ∈ [[], ['+'], ['-']])
    (hds : Digits ds) (rest : List Char) :
    ∃ negative, takeSign (sign ++ (ds ++ rest)) = (negative, ds ++ rest) := by
  obtain ⟨c, ds, rfl⟩ := List.exists_cons_of_ne_nil hds.ne_nil
  simp only [List.mem_cons, List.not_mem_nil, or_false] at hsign
  rcases hsign with rfl | rfl | rfl
  · exact ⟨_, takeSign_of_isDigit (hds.isDigit c List.mem_cons_self) _⟩
  · exact ⟨_, rfl⟩
  · exact ⟨_, rfl⟩

theorem exponent?_append (h : Power cs) (hrest : EndsNumeral rest) :
    ∃ e, exponent? (cs ++ rest) = some (e, rest) := by
  cases h with
  | none =>
    cases rest with
    | nil => exact ⟨_, rfl⟩
    | cons c rest =>
      have hc := (hrest c rfl).2
      simp only [List.mem_cons, List.not_mem_nil, or_false, not_or] at hc
      refine ⟨none, ?_⟩
      rw [List.nil_append, exponent?, if_neg (by tauto)]
  | @mark c sign ds hc hsign hds =>
    obtain ⟨negative, htake⟩ := takeSign_append hsign hds rest
    have hdigits := digits?_append hds fun c hc => (hrest c hc).1
    refine ⟨some (if negative then -natOfDigits ds else natOfDigits ds), ?_⟩
    rw [List.cons_append, List.append_assoc, exponent?, if_pos hc, htake]
    simp only [hdigits, Option.bind_eq_bind, Option.bind_some, Option.pure_def]

/-- Behind the digits of a number come no more digits, whatever part of it follows. -/
theorem head_fraction {fraction : List Char} (h : Fraction fraction)
    (hrest : ∀ c ∈ rest.head?, c.isDigit = false) :
    ∀ c ∈ (fraction ++ rest).head?, c.isDigit = false := by
  cases h with
  | none => exact hrest
  | point =>
    intro c hc
    obtain rfl := Option.some.inj hc
    rfl

theorem head_power {power : List Char} (h : Power power) (hrest : EndsNumeral rest) :
    ∀ c ∈ (power ++ rest).head?, c.isDigit = false ∧ c ≠ '.' := by
  cases h with
  | none =>
    intro c hc
    obtain ⟨hdigit, hmem⟩ := hrest c hc
    exact ⟨hdigit, fun h => hmem (by rw [h]; decide)⟩
  | mark hmark =>
    intro c hc
    obtain rfl := Option.some.inj hc
    rcases hmark with rfl | rfl <;> decide

/-- The text of a number is read up to its end. -/
theorem numeral?_append (h : NumeralText cs) (hrest : EndsNumeral rest) :
    ∃ n, numeral? (cs ++ rest) = some (n, rest) := by
  obtain @⟨sign, whole, fraction, power, hsign, hwhole, hfraction, hpower⟩ := h
  have hpower' := head_power hpower hrest
  have hfraction' := head_fraction hfraction fun c hc => (hpower' c hc).1
  obtain ⟨ds, hds⟩ := fraction?_append hfraction hpower'
  obtain ⟨e, he⟩ := exponent?_append hpower hrest
  have hbody := whole?_append hwhole hfraction'
  obtain ⟨c, cs, rfl⟩ := List.exists_cons_of_ne_nil hwhole.ne_nil
  have hminus : c ≠ '-' := by
    rintro rfl
    exact absurd (hwhole.isDigit _ List.mem_cons_self) (by decide)
  simp only [List.mem_cons, List.not_mem_nil, or_false] at hsign
  rw [List.append_assoc, List.append_assoc, List.append_assoc]
  rw [List.cons_append] at hbody ⊢
  rcases hsign with rfl | rfl
  · exact ⟨⟨false, c :: cs, ds, e⟩, by simp [numeral?, hminus, hbody, hds, he]⟩
  · exact ⟨⟨true, c :: cs, ds, e⟩, by simp [numeral?, hbody, hds, he]⟩

end

/-! ## Writing -/

theorem isDigit_of_mem_zeros (n : Nat) : ∀ c ∈ zeros n, c.isDigit = true := by
  intro c hc
  obtain rfl := List.eq_of_mem_replicate hc
  rfl

theorem digits_digits (n : Nat) : Digits (digits n) :=
  ⟨Nat.toDigits_ne_nil, fun _ => Nat.isDigit_of_mem_toDigits (by decide) (by decide)⟩

theorem digits_zero : Digits ['0'] := ⟨List.cons_ne_nil _ _, List.forall_mem_singleton.2 rfl⟩

theorem whole_zero : Whole ['0'] := ⟨digits_zero, fun _ => rfl⟩

/-- Digits that start with no zero, and any digits behind them. -/
theorem whole_append {ds more : List Char} (hds : Digits ds) (hhead : ds.head? ≠ some '0')
    (hmore : ∀ c ∈ more, c.isDigit = true) : Whole (ds ++ more) := by
  obtain ⟨c, ds, rfl⟩ := List.exists_cons_of_ne_nil hds.ne_nil
  exact ⟨⟨by simp, List.forall_mem_append.2 ⟨hds.isDigit, hmore⟩⟩, fun h => absurd h hhead⟩

theorem whole_take {ds : List Char} (hds : Digits ds) (hhead : ds.head? ≠ some '0') {n : Nat}
    (hn : 0 < n) : Whole (ds.take n) := by
  obtain ⟨c, ds, rfl⟩ := List.exists_cons_of_ne_nil hds.ne_nil
  obtain ⟨k, rfl⟩ := Nat.exists_eq_add_one_of_ne_zero hn.ne'
  have hdigit := fun d hd => hds.isDigit d (List.take_subset (k + 1) _ hd)
  exact ⟨⟨by simp, hdigit⟩, fun h => absurd h hhead⟩

section

variable {sign ds : List Char} (hsign : sign ∈ [[], ['-']]) (hds : Digits ds)
  (hhead : ds.head? ≠ some '0') (point : Int)
include hsign hds hhead

theorem numeralText_placePoint (wholePoint : Bool) :
    NumeralText (sign ++ placePoint wholePoint ds point) := by
  unfold placePoint
  split_ifs with hfirst hinside hpoint
  · -- all digits stand behind the point
    have hfraction : Digits (zeros (-point).toNat ++ ds) := by
      refine ⟨fun h => hds.ne_nil (List.append_eq_nil_iff.1 h).2, ?_⟩
      exact List.forall_mem_append.2 ⟨isDigit_of_mem_zeros _, hds.isDigit⟩
    simpa using NumeralText.mk hsign whole_zero (.point hfraction) .none
  · -- the point stands between two digits
    have hwhole := whole_take hds hhead (n := point.toNat) (by omega)
    have hfraction : Digits (ds.drop point.toNat) := by
      refine ⟨fun h => ?_, fun c hc => hds.isDigit c (List.drop_subset _ _ hc)⟩
      have := List.drop_eq_nil_iff.1 h
      omega
    simpa using NumeralText.mk hsign hwhole (.point hfraction) .none
  -- the point stands behind all digits, or is left out
  · have hwhole := whole_append hds hhead (isDigit_of_mem_zeros (point - ds.length).toNat)
    simpa using NumeralText.mk hsign hwhole (.point digits_zero) .none
  · have hwhole := whole_append hds hhead (isDigit_of_mem_zeros (point - ds.length).toNat)
    simpa using NumeralText.mk hsign hwhole .none .none

theorem numeralText_placeExponent : NumeralText (sign ++ placeExponent ds point) := by
  have hwhole := whole_take hds hhead Nat.one_pos
  obtain ⟨mark, hmark, heq⟩ : ∃ mark, [mark] ∈ [[], ['+'], ['-']] ∧
      (if point - 1 < 0 then '-' else '+') = mark := by
    refine ⟨_, ?_, rfl⟩
    split <;> decide
  have hpower : Power (['e', mark] ++ digits (point - 1).natAbs) :=
    .mark (.inl rfl) hmark (digits_digits _)
  rw [placeExponent, heq]
  cases hrest : ds.drop 1 with
  | nil => simpa using NumeralText.mk hsign hwhole .none hpower
  | cons c rest =>
    have hfraction : Digits (c :: rest) := by
      refine ⟨List.cons_ne_nil c rest, ?_⟩
      rw [← hrest]
      exact fun c hc => hds.isDigit c (List.drop_subset 1 ds hc)
    simpa using NumeralText.mk hsign hwhole (.point hfraction) hpower

end

theorem numeralText_magnitude (layout : Layout) {sign : List Char} (hsign : sign ∈ [[], ['-']])
    {d : Scientific} (hd : 0 < d.coefficient) : NumeralText (sign ++ layout.magnitude d) := by
  have hds := digits_digits d.coefficient
  have hhead := head_digits hd
  simp only [Layout.magnitude]
  split
  · exact numeralText_placePoint hsign hds hhead _ _
  · split
    · exact numeralText_placePoint hsign hds hhead _ _
    · exact numeralText_placeExponent hsign hds hhead _

/-- In every layout a finite double is written as a number. -/
theorem numeralText_write (layout : Layout) {x : Float} (h : x.isFinite = true) :
    NumeralText (layout.write x).toList := by
  obtain ⟨negative, mantissa, exponent, hx⟩ := ofFloat_of_isFinite h
  rw [Layout.write, hx]
  simp only [String.toList_ofList]
  obtain ⟨sign, hsign, heq⟩ : ∃ sign ∈ [[], ['-']],
      (if negative = true ∧ (¬mantissa = 0 ∨ layout.signedZero = true) then ['-'] else []) =
        sign := by
    refine ⟨_, ?_, rfl⟩
    split <;> decide
  rw [heq]
  split
  · have hfraction : Fraction (if layout.wholePoint = true then ['.', '0'] else []) := by
      split
      · exact .point digits_zero
      · exact .none
    simpa [placePoint, zeros] using NumeralText.mk hsign whole_zero hfraction .none
  · next hmantissa =>
    exact numeralText_magnitude layout hsign (shortest_pos (Nat.pos_of_ne_zero hmantissa) _ _)

end SnippetConsole.Json
