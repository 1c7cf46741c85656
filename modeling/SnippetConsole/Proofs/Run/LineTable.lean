import SnippetConsole.Proofs.Text.Blank
import SnippetConsole.Run.Basic

/-!
# The table of lines

A line is looked up by the bytes at which lines start. These are the bytes behind the
pieces in front of it, each with its newline, so the lookup never leaves the source and
never cuts a character in two: it finds the piece.

* `lineStarts_eq` — each line starts behind the pieces in front of it.
* `line?_eq` — a line is the piece, without the carriage returns at its end.
* `length_lines` — how many lines a source shows, also where it has too many to number.
* `lines_of_pieces` — what the lines of a source are, and that a run sees nothing but the
  trimmed pieces.
-/

namespace SnippetConsole

namespace Text

/-! ## Pieces -/

theorem rawLines_eq (source : String) : rawLines source = source.toList.splitOn '\n' := by
  rw [rawLines]
  induction source.toList with
  | nil => rfl
  | cons c cs ih =>
    rw [cut_cons, ih, List.splitOn, List.splitOn, List.splitOnP_cons_eq_if_modifyHead]

theorem length_cut (cs : List Char) : (cut (· == '\n') cs).length = 1 + cs.count '\n' := by
  induction cs with
  | nil => rfl
  | cons c cs ih =>
    rw [cut_cons, List.count_cons]
    split
    · rw [List.length_cons, ih]
      omega
    · rw [List.length_modifyHead, ih, Nat.add_zero]

/-- Pieces, each with the newline behind it. -/
def terminated (pieces : List (List Char)) : List Char := pieces.flatMap (· ++ ['\n'])

/-- A text is made up of a piece, the pieces in front of it, each with its newline, and
what is behind it. -/
theorem exists_append_of_cut {cs piece : List Char} {before after : List (List Char)}
    (h : cut (· == '\n') cs = before ++ piece :: after) :
    ∃ rest, cs = terminated before ++ piece ++ rest ∧ (after = [] → rest = []) := by
  induction cs generalizing before piece with
  | nil =>
    obtain ⟨rfl, hpiece⟩ := List.append_eq_singleton_iff.1 h.symm |>.resolve_right (by simp)
    obtain ⟨rfl, -⟩ := List.cons.inj hpiece
    exact ⟨[], rfl, fun _ => rfl⟩
  | cons c cs ih =>
    rw [cut_cons] at h
    split at h
    · next hc =>
      obtain rfl : c = '\n' := beq_iff_eq.1 hc
      cases before with
      | nil =>
        obtain ⟨rfl, hcut⟩ := List.cons.inj h
        exact ⟨'\n' :: cs, rfl, fun hafter => absurd (hcut.trans hafter) (cut_ne_nil _ _)⟩
      | cons first before =>
        obtain ⟨rfl, hcut⟩ := List.cons.inj h
        obtain ⟨rest, rfl, hrest⟩ := ih hcut
        exact ⟨rest, rfl, hrest⟩
    · obtain ⟨p, ps, hcut⟩ := List.exists_cons_of_ne_nil (cut_ne_nil (· == '\n') cs)
      rw [hcut, List.modifyHead_cons] at h
      cases before with
      | nil =>
        obtain ⟨rfl, rfl⟩ := List.cons.inj h
        obtain ⟨rest, rfl, hrest⟩ := @ih p [] hcut
        exact ⟨rest, rfl, hrest⟩
      | cons first before =>
        obtain ⟨rfl, rfl⟩ := List.cons.inj h
        obtain ⟨rest, rfl, hrest⟩ := @ih piece (p :: before) hcut
        exact ⟨rest, rfl, hrest⟩

/-! ## Starts -/

/-- The bytes at which pieces start that stand one behind the other, the first at byte
`start`. -/
def startsOf (start : Nat) : List (List Char) → List Nat
  | [] => []
  | piece :: pieces => start :: startsOf (start + byteCount piece + 1) pieces

theorem lineStarts_eq (source : String) : lineStarts source = startsOf 0 (rawLines source) := by
  have hstarts : ∀ (cs : List Char) (start : Nat),
      start :: startsBehind start cs = startsOf start (cut (· == '\n') cs) := by
    intro cs
    induction cs with
    | nil => exact fun _ => rfl
    | cons c cs ih =>
      intro start
      rw [cut_cons, startsBehind]
      by_cases hc : c = '\n'
      · subst hc
        show start :: (start + 1) :: startsBehind (start + 1) cs = _
        rw [ih]
        rfl
      · obtain ⟨piece, pieces, hcut⟩ := List.exists_cons_of_ne_nil (cut_ne_nil (· == '\n') cs)
        have hnext := ih (start + c.utf8Size)
        rw [hcut, startsOf, List.cons.injEq] at hnext
        rw [if_neg hc, if_neg (by simpa using hc), hcut, hnext.2, List.modifyHead_cons, startsOf,
          byteCount_cons, Nat.add_assoc start]
  exact hstarts source.toList 0

theorem length_startsOf (start : Nat) (pieces : List (List Char)) :
    (startsOf start pieces).length = pieces.length := by
  induction pieces generalizing start with
  | nil => rfl
  | cons piece pieces ih => rw [startsOf, List.length_cons, ih, List.length_cons]

theorem startsOf_append (start : Nat) (before after : List (List Char)) :
    startsOf start (before ++ after) =
      startsOf start before ++ startsOf (start + byteCount (terminated before)) after := by
  induction before generalizing start with
  | nil => rfl
  | cons piece before ih =>
    have hbytes : byteCount (terminated (piece :: before)) =
        byteCount piece + 1 + byteCount (terminated before) := by
      rw [terminated, List.flatMap_cons, byteCount_append, byteCount_append]
      rfl
    rw [List.cons_append, startsOf, startsOf, ih, hbytes, List.cons_append]
    congr 3
    omega

/-- A piece goes from its start to the newline in front of the next start, or to the end
of the source. -/
theorem getElem?_lineStarts {source : String} {before after : List (List Char)}
    {piece rest : List Char} (hpieces : rawLines source = before ++ piece :: after)
    (hsource : source.toList = terminated before ++ piece ++ rest)
    (hrest : after = [] → rest = []) :
    (lineStarts source)[before.length]? = some (byteCount (terminated before)) ∧
      ((lineStarts source)[before.length + 1]?.map (· - 1)).getD (byteCount source.toList) =
        byteCount (terminated before) + byteCount piece := by
  have hlength := length_startsOf 0 before
  rw [lineStarts_eq, hpieces, startsOf_append, Nat.zero_add, startsOf,
    List.getElem?_append_right hlength.le, List.getElem?_append_right (by omega), hlength,
    Nat.sub_self, Nat.add_sub_cancel_left]
  refine ⟨rfl, ?_⟩
  cases after with
  | nil =>
    show byteCount source.toList = _
    rw [hsource, hrest rfl, List.append_nil, byteCount_append]
  | cons next after => rfl

theorem line?_eq (source : String) (n : Nat) :
    line? source (n + 1) =
      (rawLines source)[n]?.map fun piece => String.ofList (dropEndWhile (· == '\r') piece) := by
  rw [line?]
  by_cases hn : n < (rawLines source).length
  · obtain ⟨before, piece, after, hpieces, hbefore⟩ : ∃ before piece after,
        rawLines source = before ++ piece :: after ∧ before.length = n := by
      refine ⟨(rawLines source).take n, (rawLines source)[n], (rawLines source).drop (n + 1), ?_,
        List.length_take_of_le hn.le⟩
      rw [List.getElem_cons_drop, List.take_append_drop]
    obtain ⟨rest, hsource, hrest⟩ := exists_append_of_cut hpieces
    obtain ⟨hstart, hstop⟩ := getElem?_lineStarts hpieces hsource hrest
    have hslice : slice? (byteCount (terminated before))
        (byteCount (terminated before) + byteCount piece) source.toList = some piece := by
      rw [hsource, slice?_append]
    have hpiece : (rawLines source)[n]? = some piece := by
      rw [hpieces, ← hbefore, List.getElem?_append_right le_rfl, Nat.sub_self]
      rfl
    rw [hbefore] at hstart hstop
    simp only [hstart, hstop, hpiece, Option.bind_eq_bind, Option.bind_some, hslice]
    rfl
  · have hnone : (lineStarts source)[n]? = none := by
      rw [lineStarts_eq, List.getElem?_eq_none_iff, length_startsOf]
      omega
    have hpiece : (rawLines source)[n]? = none := List.getElem?_eq_none_iff.2 (by omega)
    rw [hnone, hpiece]
    rfl

theorem line?_eq_none_iff (source : String) (n : Nat) :
    line? source n = none ↔ n = 0 ∨ lineCount source < n := by
  cases n with
  | zero => exact iff_of_true rfl (.inl rfl)
  | succ n =>
    rw [line?_eq, Option.map_eq_none_iff, List.getElem?_eq_none_iff, lineCount]
    omega

/-! ## Trimmed lines -/

theorem trimChars_append {cs blanks : List Char} (h : ∀ c ∈ blanks, isBlank c = true) :
    trimChars (cs ++ blanks) = trimChars cs := by
  rw [trimChars, trimChars, List.dropWhile_append]
  split
  · next hcs => rw [List.isEmpty_iff.1 hcs, List.dropWhile_eq_nil_iff.2 h]
  · have hreverse : ∀ c ∈ blanks.reverse, isBlank c = true := by simpa using h
    rw [dropEndWhile, dropEndWhile, List.reverse_append, List.dropWhile_append_of_pos hreverse]

/-- A carriage return is blank, so a line is trimmed as its piece is. -/
theorem trimChars_dropEndWhile (piece : List Char) :
    trimChars (dropEndWhile (· == '\r') piece) = trimChars piece := by
  have hblank : ∀ c ∈ piece.rtakeWhile (· == '\r'), isBlank c = true := by
    intro c hc
    have hreturn := @List.mem_rtakeWhile_imp _ (· == '\r') _ _ hc
    obtain rfl := beq_iff_eq.1 hreturn
    decide
  rw [dropEndWhile_eq, ← trimChars_append hblank, List.rdropWhile_append_rtakeWhile]

theorem numbered_eq_filterMap (first : Nat) (raw : List (List Char)) :
    numbered first raw = (List.range' first raw.length).filterMap fun n =>
      raw[n - first]?.map fun cs => ⟨n, String.ofList (trimChars cs)⟩ := by
  induction raw generalizing first with
  | nil => rfl
  | cons cs raw ih =>
    have hlater : ∀ n ∈ List.range' (first + 1) raw.length,
        (cs :: raw)[n - first]? = raw[n - (first + 1)]? := by
      intro n hn
      have hle := List.left_le_of_mem_range' hn
      rw [show n - first = n - (first + 1) + 1 by omega, List.getElem?_cons_succ]
    rw [List.length_cons, List.range'_succ, List.filterMap_cons, Nat.sub_self,
      List.filterMap_congr fun n hn => by rw [hlater n hn], ← ih]
    rfl

theorem length_take_rawLines (source : String) :
    ((rawLines source).take (lineCount source % numberCount)).length =
      lineCount source % numberCount :=
  List.length_take_of_le (Nat.mod_le _ _)

/-- The lines that a source shows are the single lines in order, trimmed. -/
theorem lines_eq_filterMap (source : String) :
    lines source = (List.range' 1 (lineCount source % numberCount)).filterMap fun n =>
      (line? source n).map fun text => ⟨n, trim text⟩ := by
  rw [lines, numbered_eq_filterMap, length_take_rawLines]
  refine List.filterMap_congr fun n hn => ?_
  obtain ⟨hle, hlt⟩ := List.mem_range'_1.1 hn
  obtain ⟨k, rfl⟩ := Nat.exists_eq_add_of_le' hle
  have hpiece : ((rawLines source).take (lineCount source % numberCount))[k]? =
      (rawLines source)[k]? := List.getElem?_take_of_lt (by omega)
  rw [line?_eq, Option.map_map, Nat.add_sub_cancel, hpiece]
  congr 1
  funext piece
  rw [Function.comp_apply, trim, String.toList_ofList, trimChars_dropEndWhile]

theorem length_lines (source : String) :
    (lines source).length = lineCount source % numberCount := by
  rw [lines, numbered, List.length_map, List.length_zipIdx, length_take_rawLines]

theorem getElem?_lines {source : String} (h : lineCount source < numberCount) (i : Nat) :
    (lines source)[i]? =
      (rawLines source)[i]?.map fun piece => ⟨i + 1, String.ofList (trimChars piece)⟩ := by
  rw [lines_eq h, numbered, List.getElem?_map, List.getElem?_zipIdx, Option.map_map,
    Nat.add_comm i 1]
  rfl

/-- Lines with their numbers are made of the trimmed pieces. -/
theorem numbered_eq_map (first : Nat) (raw : List (List Char)) :
    numbered first raw =
      ((raw.map trimChars).zipIdx first).map fun (cs, n) => ⟨n, String.ofList cs⟩ := by
  rw [numbered, List.zipIdx_map, List.map_map]
  rfl

end Text

/-- What a line holds does not depend on how it is indented or ends. -/
theorem run_congr {a b : String}
    (h : (Text.rawLines a).map Text.trimChars = (Text.rawLines b).map Text.trimChars)
    (limits : Limits) : run limits a = run limits b := by
  have hcount : Text.lineCount a = Text.lineCount b := by
    simpa only [Text.lineCount, List.length_map] using congrArg List.length h
  have hlines : Text.lines a = Text.lines b := by
    rw [Text.lines, Text.lines, Text.numbered_eq_map, Text.numbered_eq_map, List.map_take,
      List.map_take, h, hcount]
  rw [run, run, hlines]

/-! ## The table -/

namespace Text

/-- A single line is looked up among the pieces, without the carriage returns at its end. -/
structure SingleLines (source : String) (pieces : List (List Char)) : Prop where
  count : lineCount source = 1 + source.toList.count '\n'
  none_iff : ∀ n, line? source n = none ↔ n = 0 ∨ lineCount source < n
  piece : ∀ n, line? source (n + 1) =
    pieces[n]?.map fun piece => String.ofList (piece.rdropWhile (· == '\r'))

/-- All lines are the single lines in order, so the pieces, numbered from one and trimmed. -/
structure AllLines (source : String) (pieces : List (List Char)) : Prop where
  single : lines source = (List.range' 1 (lineCount source)).filterMap fun n =>
    (line? source n).map fun text => ⟨n, trim text⟩
  length : (lines source).length = lineCount source
  piece : ∀ i, (lines source)[i]? =
    pieces[i]?.map fun piece => (⟨i + 1, trim (String.ofList piece)⟩ : Line)

theorem singleLines (source : String) : SingleLines source (source.toList.splitOn '\n') where
  count := length_cut source.toList
  none_iff := line?_eq_none_iff source
  piece n := by
    rw [line?_eq, rawLines_eq]
    rfl

theorem allLines {source : String} (h : lineCount source < numberCount) :
    AllLines source (source.toList.splitOn '\n') where
  single := by rw [lines_eq_filterMap, Nat.mod_eq_of_lt h]
  length := by rw [length_lines, Nat.mod_eq_of_lt h]
  piece i := by
    rw [getElem?_lines h, rawLines_eq]
    simp only [trim, String.toList_ofList]

end Text

/-- The lines of a source are its pieces between newlines, one by one, and all together as
long as they can be numbered. A run sees no more of them than the trimmed pieces. -/
theorem lines_of_pieces (source : String) :
    let pieces := source.toList.splitOn '\n'
    Text.SingleLines source pieces ∧
      (Text.lineCount source < Text.numberCount → Text.AllLines source pieces) ∧
      ∀ limits other,
        pieces.map Text.trimChars = (other.toList.splitOn '\n').map Text.trimChars →
          run limits source = run limits other := by
  refine ⟨Text.singleLines source, Text.allLines, fun limits other h => ?_⟩
  refine run_congr ?_ limits
  rw [Text.rawLines_eq, Text.rawLines_eq]
  exact h

/-- Tabs, blanks and carriage returns around two statements with a letter of two bytes. -/
theorem lines_of_pieces_indented :
    let source := "var s = \"é\";\r\n\tConsole.WriteLine(s);\r"
    let other := "  var s = \"é\";\nConsole.WriteLine(s);"
    Text.lineCount source < Text.numberCount ∧
      Text.AllLines source (source.toList.splitOn '\n') ∧
      (source.toList.splitOn '\n').map Text.trimChars =
        (other.toList.splitOn '\n').map Text.trimChars ∧
      run {} source = run {} other := by
  intro source other
  have hcount : Text.lineCount source < Text.numberCount := by decide +kernel
  have h : (source.toList.splitOn '\n').map Text.trimChars =
      (other.toList.splitOn '\n').map Text.trimChars := by decide +kernel
  obtain ⟨-, hall, hrun⟩ := lines_of_pieces source
  exact ⟨hcount, hall hcount, h, hrun {} other h⟩

end SnippetConsole
