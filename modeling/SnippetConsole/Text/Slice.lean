/-!
# Byte offsets into a text

Positions in a line are counted in bytes of its UTF-8 form. A slice is taken
only at character boundaries: a range that is reversed, leaves the text or
starts or stops inside a character has no slice.

* `slice?_append` — the range of the middle part of a text slices out that part.
-/

namespace SnippetConsole.Text

/-- The number of bytes of the characters in UTF-8. -/
def byteCount (cs : List Char) : Nat := cs.foldl (fun n c => n + c.utf8Size) 0

theorem foldl_utf8Size (cs : List Char) (n : Nat) :
    cs.foldl (fun n c => n + c.utf8Size) n = n + byteCount cs := by
  induction cs generalizing n with
  | nil => rfl
  | cons c cs ih =>
    simp only [byteCount, List.foldl_cons, Nat.zero_add]
    rw [ih, ih c.utf8Size, Nat.add_assoc]

@[simp] theorem byteCount_nil : byteCount [] = 0 := rfl

@[simp] theorem byteCount_cons (c : Char) (cs : List Char) :
    byteCount (c :: cs) = c.utf8Size + byteCount cs := by
  rw [byteCount, List.foldl_cons, foldl_utf8Size, Nat.zero_add]

@[simp] theorem byteCount_append (a b : List Char) :
    byteCount (a ++ b) = byteCount a + byteCount b := by
  induction a with
  | nil => simp
  | cons c cs ih => simp [ih, Nat.add_assoc]

/-- The characters before and after a byte offset, if it is a boundary. -/
def splitAtByte? : Nat → List Char → Option (List Char × List Char)
  | 0, cs => some ([], cs)
  | _ + 1, [] => none
  | n + 1, c :: cs =>
    if c.utf8Size ≤ n + 1 then
      (splitAtByte? (n + 1 - c.utf8Size) cs).map fun (before, after) => (c :: before, after)
    else none

theorem splitAtByte?_byteCount (a b : List Char) :
    splitAtByte? (byteCount a) (a ++ b) = some (a, b) := by
  induction a with
  | nil => simp [splitAtByte?]
  | cons c cs ih =>
    have hc := c.utf8Size_pos
    obtain ⟨n, hn⟩ : ∃ n, byteCount (c :: cs) = n + 1 :=
      ⟨c.utf8Size + byteCount cs - 1, by simp; omega⟩
    rw [hn, List.cons_append, splitAtByte?]
    simp only [byteCount_cons] at hn
    rw [if_pos (by omega), show n + 1 - c.utf8Size = byteCount cs by omega, ih]
    rfl

theorem append_of_splitAtByte? {n : Nat} {cs before after : List Char}
    (h : splitAtByte? n cs = some (before, after)) : before ++ after = cs := by
  fun_induction splitAtByte? n cs generalizing before with
  | case1 cs =>
    cases h
    rfl
  | case2 => cases h
  | case3 n c cs _ ih =>
    obtain ⟨⟨before, rest⟩, hsplit, heq⟩ := Option.map_eq_some_iff.1 h
    obtain ⟨rfl, rfl⟩ := Prod.mk.inj heq
    rw [List.cons_append, ih hsplit]
  | case4 => cases h

/-- The characters from byte `start` up to byte `stop`. -/
def slice? (start stop : Nat) (cs : List Char) : Option (List Char) :=
  if start ≤ stop then do
    let (_, rest) ← splitAtByte? start cs
    let (middle, _) ← splitAtByte? (stop - start) rest
    return middle
  else none

theorem slice?_append (a b c : List Char) :
    slice? (byteCount a) (byteCount a + byteCount b) (a ++ b ++ c) = some b := by
  rw [slice?, if_pos (by omega), List.append_assoc, splitAtByte?_byteCount]
  simp [splitAtByte?_byteCount]

theorem isInfix_of_slice? {start stop : Nat} {cs part : List Char}
    (h : slice? start stop cs = some part) : part <:+: cs := by
  unfold slice? at h
  split at h
  · simp only [Option.bind_eq_bind, Option.bind_eq_some_iff, Option.pure_def,
      Option.some.injEq] at h
    obtain ⟨⟨before, rest⟩, hbefore, ⟨middle, after⟩, hmiddle, rfl⟩ := h
    refine ⟨before, after, ?_⟩
    rw [List.append_assoc, append_of_splitAtByte? hmiddle, append_of_splitAtByte? hbefore]
  · cases h

end SnippetConsole.Text
