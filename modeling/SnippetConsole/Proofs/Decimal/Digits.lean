import Mathlib.Data.List.TakeDrop
import SnippetConsole.Decimal.Reading

/-!
# Digits as decimal text

The number of a literal is what its digits say as a decimal text of their own, so
reading them never fails.

* `read?_digits` — digits, with or without a fraction, are read as their number.
-/

namespace SnippetConsole.Decimal

/-- Not empty, and nothing but digits. -/
structure Digits (ds : List Char) : Prop where
  ne_nil : ds ≠ []
  isDigit : ∀ c ∈ ds, c.isDigit = true

theorem toLower_of_isDigit {c : Char} (h : c.isDigit = true) : c.toLower = c := by
  unfold Char.toLower
  rw [dif_neg]
  simp only [Char.isDigit, Bool.and_eq_true, decide_eq_true_eq, ge_iff_le,
    UInt32.le_iff_toNat_le] at h ⊢
  rintro ⟨hA, -⟩
  have hlast : ('9' : Char).val.toNat = 57 := rfl
  have hfirst : ('A' : Char).val.toNat = 65 := rfl
  omega

theorem takeSign_of_isDigit {c : Char} (h : c.isDigit = true) (cs : List Char) :
    takeSign (c :: cs) = (false, c :: cs) := by
  unfold takeSign
  split
  · next heq =>
    obtain ⟨rfl, -⟩ := List.cons.inj heq
    exact absurd h (by decide)
  · next heq =>
    obtain ⟨rfl, -⟩ := List.cons.inj heq
    exact absurd h (by decide)
  · rfl

/-- All digits are taken where no digit follows. -/
theorem span_digits {ds rest : List Char} (hds : Digits ds)
    (hrest : ∀ c ∈ rest.head?, c.isDigit = false) :
    (ds ++ rest).takeWhile Char.isDigit = ds ∧ (ds ++ rest).dropWhile Char.isDigit = rest := by
  have hend : rest.takeWhile Char.isDigit = [] ∧ rest.dropWhile Char.isDigit = rest := by
    cases rest with
    | nil => exact ⟨rfl, rfl⟩
    | cons c rest => simp [hrest c rfl]
  rw [List.takeWhile_append_of_pos hds.isDigit, List.dropWhile_append_of_pos hds.isDigit, hend.1,
    hend.2, List.append_nil]
  exact ⟨rfl, rfl⟩

theorem readMagnitude?_digits {whole : List Char} (h : Digits whole) :
    readMagnitude? whole = some (ofDigits whole []) := by
  obtain ⟨htake, hdrop⟩ := @span_digits _ [] h (by simp)
  rw [List.append_nil] at htake hdrop
  simp [readMagnitude?, htake, hdrop, h.ne_nil, readExponent?, ofDigits]

theorem readMagnitude?_point {whole fraction : List Char} (h : Digits whole)
    (hfraction : Digits fraction) :
    readMagnitude? (whole ++ '.' :: fraction) = some (ofDigits whole fraction) := by
  have hpoint : ∀ c ∈ ('.' :: fraction).head?, c.isDigit = false := by
    intro c hc
    obtain rfl := Option.some.inj hc
    decide
  obtain ⟨htake, hdrop⟩ := span_digits h hpoint
  obtain ⟨htake', hdrop'⟩ := @span_digits _ [] hfraction (by simp)
  rw [List.append_nil] at htake' hdrop'
  simp [readMagnitude?, htake, hdrop, htake', hdrop', h.ne_nil, readExponent?, ofDigits]

/-- A text that starts with a digit has no sign and is no name of a special number. -/
theorem read?_of_isDigit {c : Char} {cs : List Char} (h : c.isDigit = true) :
    read? (String.ofList (c :: cs)) = readMagnitude? (c :: cs) := by
  have hname {name : String} (hn : name.toList.head?.all (!·.isDigit) = true) :
      String.ofList ((c :: cs).map Char.toLower) ≠ name := by
    rintro rfl
    rw [String.toList_ofList, List.map_cons, toLower_of_isDigit h] at hn
    simp [h] at hn
  rw [read?, String.toList_ofList, takeSign_of_isDigit h]
  simp only [Bool.false_eq_true, if_false, Option.map_id']
  split
  · next heq => exact absurd heq (hname (by decide))
  · next heq => exact absurd heq (hname (by decide))
  · next heq => exact absurd heq (hname (by decide))
  · rfl

/-- Digits, and maybe a point with more digits behind it, are read as their number. -/
theorem read?_digits {whole part : List Char} (hwhole : Digits whole)
    (hpart : part = [] ∨ ∃ fraction, part = '.' :: fraction ∧ Digits fraction) :
    read? (String.ofList (whole ++ part)) = some (ofDigits whole (part.drop 1)) := by
  obtain ⟨c, cs, rfl⟩ := List.exists_cons_of_ne_nil hwhole.ne_nil
  rw [List.cons_append, read?_of_isDigit (hwhole.isDigit c List.mem_cons_self)]
  rcases hpart with rfl | ⟨fraction, rfl, hfraction⟩
  · rw [List.append_nil]
    exact readMagnitude?_digits hwhole
  · exact readMagnitude?_point hwhole hfraction

end SnippetConsole.Decimal
