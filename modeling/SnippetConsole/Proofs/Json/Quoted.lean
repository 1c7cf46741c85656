import Mathlib.Data.List.Basic
import SnippetConsole.Json.Quoted

/-!
# Strings in quotes

Any text can stand between quotes: what `escape` makes of it is a raw text that
reads up to the closing quote and denotes the text again. Characters below U+0020
are written as escapes, and a character beyond the basic plane stands for itself,
so no surrogate is ever written.

* `raw_append` — a raw text is read up to the quote that closes it.
* `unescape?_escape` — an escaped text denotes the text it was made of.
-/

namespace SnippetConsole.Json

/-- What may stand between quotes. -/
inductive RawText : List Char → Prop
  | nil : RawText []
  | plain {c : Char} {cs : List Char} (hc : 0x20 ≤ c.toNat) (hquote : c ≠ '"')
      (hslash : c ≠ '\\') (hcs : RawText cs) : RawText (c :: cs)
  | short {e : Char} {cs : List Char} (he : (shortEscapes.lookup e).isSome)
      (hcs : RawText cs) : RawText ('\\' :: e :: cs)
  | hex {a b c d : Char} {cs : List Char} (h : (hexValue4? a b c d).isSome)
      (hcs : RawText cs) : RawText ('\\' :: 'u' :: a :: b :: c :: d :: cs)

/-- The letter in front of a code point is not the letter of a short escape. -/
theorem ne_u_of_lookup {e : Char} (he : (shortEscapes.lookup e).isSome) : e ≠ 'u' := by
  rintro rfl
  exact absurd he (by decide)

/-- A raw text is read as it is, up to the quote behind it. -/
theorem raw_append {cs : List Char} (h : RawText cs) (rest : List Char) :
    raw (cs ++ '"' :: rest) = some (cs, rest) := by
  induction h with
  | nil => rfl
  | plain hc hquote hslash _ ih => simp [raw, hslash, Nat.not_lt.2 hc, ih]
  | short he _ ih => simp [raw, ne_u_of_lookup he, he, ih]
  | hex h _ ih => simp [raw, h, ih]

/-! ## The characters of a text -/

theorem hexValue4?_hexDigit : ∀ n < 0x20,
    hexValue4? '0' '0' (hexDigit (n / 16)) (hexDigit (n % 16)) = some n := by decide

/-- The three ways to write a character: by a letter, as a code point below
U+0020, or as itself. -/
theorem escapeChar_cases (c : Char) :
    (∃ e, escapeChar c = ['\\', e] ∧ shortEscapes.lookup e = some c) ∨
    (∃ a b, escapeChar c = ['\\', 'u', '0', '0', a, b] ∧ hexValue4? '0' '0' a b = some c.toNat) ∨
    (escapeChar c = [c] ∧ 0x20 ≤ c.toNat ∧ c ≠ '"' ∧ c ≠ '\\') := by
  unfold escapeChar
  split
  case h_8 hquote hslash _ _ _ _ _ =>
    split
    · next hc => exact .inr (.inl ⟨_, _, rfl, hexValue4?_hexDigit _ hc⟩)
    · next hc => exact .inr (.inr ⟨rfl, Nat.not_lt.1 hc, hquote, hslash⟩)
  all_goals exact .inl ⟨_, rfl, by decide⟩

theorem rawText_escape (cs : List Char) : RawText (escape cs) := by
  induction cs with
  | nil => exact .nil
  | cons c cs ih =>
    rw [escape, List.flatMap_cons, ← escape]
    rcases escapeChar_cases c with ⟨e, hc, he⟩ | ⟨a, b, hc, hvalue⟩ | ⟨hc, hle, hquote, hslash⟩
    · rw [hc]
      exact .short (by rw [he]; rfl) ih
    · rw [hc]
      exact .hex (by rw [hvalue]; rfl) ih
    · rw [hc]
      exact .plain hle hquote hslash ih

/-- The code points of an escaped text are those of the text. -/
theorem units?_escape (cs : List Char) : units? (escape cs) = some (cs.map Char.toNat) := by
  induction cs with
  | nil => rfl
  | cons c cs ih =>
    rw [escape, List.flatMap_cons, ← escape, List.map_cons]
    rcases escapeChar_cases c with ⟨e, hc, he⟩ | ⟨a, b, hc, hvalue⟩ | ⟨hc, -, -, hslash⟩
    · have hu := ne_u_of_lookup (e := e) (by rw [he]; rfl)
      rw [hc]
      simp [units?, hu, he, ih]
    · rw [hc]
      simp [units?, hvalue, ih]
    · rw [hc]
      simp [units?, hslash, ih]

/-- The surrogates lie in the gap that the code points of characters leave. -/
theorem not_surrogate (c : Char) :
    isHighSurrogate c.toNat = false ∧ isLowSurrogate c.toNat = false := by
  have hvalid : c.toNat < 0xD800 ∨ 0xDFFF < c.toNat ∧ c.toNat < 0x110000 := c.valid
  simp only [isHighSurrogate, isLowSurrogate, Bool.and_eq_false_iff, decide_eq_false_iff_not]
  omega

theorem characters?_toNat (cs : List Char) : characters? (cs.map Char.toNat) = some cs := by
  induction cs with
  | nil => rfl
  | cons c cs ih =>
    obtain ⟨hhigh, hlow⟩ := not_surrogate c
    cases cs with
    | nil => simp [characters?, hhigh, hlow, Char.ofNat_toNat]
    | cons d ds =>
      rw [List.map_cons] at ih
      simp [characters?, hhigh, hlow, ih, Char.ofNat_toNat]

/-- An escaped text denotes the text. -/
theorem unescape?_escape (cs : List Char) : unescape? (escape cs) = some cs := by
  rw [unescape?, units?_escape, Option.bind_some, characters?_toNat]

end SnippetConsole.Json
