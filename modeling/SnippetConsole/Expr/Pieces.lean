/-!
# Interpolated text

The raw text of an interpolated string is a sequence of plain characters and
holes. A hole runs from an opening brace to the next closing one; an opening
brace without a closing one after it is a plain character like any other.

* `source_pieces` — the pieces, written out again, are the text.
-/

namespace SnippetConsole

/-- A plain character, or the text between two braces. -/
inductive Piece
  | char (c : Char)
  | hole (inner : List Char)
  deriving DecidableEq, Repr

/-- A piece as it stands in the raw text. -/
def Piece.source : Piece → List Char
  | .char c => [c]
  | .hole inner => '\x7b' :: inner ++ ['\x7d']

/-- The pieces of a raw text. -/
def pieces : List Char → List Piece
  | [] => []
  | c :: cs =>
    if c = '\x7b' then
      match _h : cs.dropWhile (· ≠ '\x7d') with
      | [] => .char c :: cs.map .char
      | _ :: rest => .hole (cs.takeWhile (· ≠ '\x7d')) :: pieces rest
    else .char c :: pieces cs
termination_by cs => cs.length
decreasing_by
  · have := (List.dropWhile_sublist (l := cs) (· ≠ '\x7d')).length_le
    simp_all
    omega
  · simp

theorem source_pieces (cs : List Char) : (pieces cs).flatMap Piece.source = cs := by
  fun_induction pieces cs with
  | case1 => rfl
  | case2 cs _ => simp [Piece.source, List.flatMap_map]
  | case3 cs d rest h ih =>
    have hd : d = '\x7d' := by
      have := List.head?_dropWhile_not (· ≠ '\x7d') cs
      simp_all
    conv => rhs; rw [← List.takeWhile_append_dropWhile (p := (· ≠ '\x7d')) (l := cs), h, hd]
    simp [Piece.source, ih]
  | case4 c cs _ ih => simp [Piece.source, ih]

end SnippetConsole
