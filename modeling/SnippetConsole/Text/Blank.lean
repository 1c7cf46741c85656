import SnippetConsole.Text.Ranges

/-!
# Blank characters, trimming and words

Blank characters are those with the Unicode property `White_Space`. Trimming
removes them at both ends; words are the maximal runs without them.

* `cut_append` — cutting after a separator cuts both sides independently.
-/

namespace SnippetConsole.Text

/-- The ranges of the property `White_Space`. -/
def blankRanges : Ranges :=
  [(0x09, 0x0D), (0x20, 0x20), (0x85, 0x85), (0xA0, 0xA0), (0x1680, 0x1680), (0x2000, 0x200A),
   (0x2028, 0x2029), (0x202F, 0x202F), (0x205F, 0x205F), (0x3000, 0x3000)]

/-- Blank characters have the property `White_Space`. -/
def isBlank (c : Char) : Bool := blankRanges.holds c

/-! ## Trimming -/

/-- The list up to the last element that fails `p`. -/
def dropEndWhile {α : Type} (p : α → Bool) (xs : List α) : List α :=
  (xs.reverse.dropWhile p).reverse

/-- The characters from the first to the last that is not blank. -/
def trimChars (cs : List Char) : List Char := dropEndWhile isBlank (cs.dropWhile isBlank)

/-- The text without the blanks at its ends. -/
def trim (text : String) : String := String.ofList (trimChars text.toList)

/-! ## Cutting -/

/-- The pieces between the characters that satisfy `p`, empty ones included. -/
def cut (p : Char → Bool) (cs : List Char) : List (List Char) :=
  cs.foldr (fun c pieces => if p c then [] :: pieces else pieces.modifyHead (c :: ·)) [[]]

theorem cut_cons (p : Char → Bool) (c : Char) (cs : List Char) :
    cut p (c :: cs) = if p c then [] :: cut p cs else (cut p cs).modifyHead (c :: ·) := rfl

theorem cut_ne_nil (p : Char → Bool) (cs : List Char) : cut p cs ≠ [] := by
  induction cs with
  | nil => simp [cut]
  | cons c cs ih =>
    rw [cut_cons]
    split
    · simp
    · cases h : cut p cs with
      | nil => exact absurd h ih
      | cons piece rest => simp

theorem cut_append {p : Char → Bool} {mark : Char} (h : p mark = true) (a b : List Char) :
    cut p (a ++ mark :: b) = cut p a ++ cut p b := by
  induction a with
  | nil => simp [cut, h]
  | cons c cs ih =>
    rw [List.cons_append, cut_cons, cut_cons, ih]
    split
    · rfl
    · cases hc : cut p cs with
      | nil => exact absurd hc (cut_ne_nil p cs)
      | cons piece rest => simp

/-- The maximal runs of characters that are not blank. -/
def words (text : String) : List String :=
  ((cut isBlank text.toList).filter (· ≠ [])).map String.ofList

end SnippetConsole.Text
