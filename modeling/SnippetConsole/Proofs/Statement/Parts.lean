import SnippetConsole.Proofs.Token.Kinds
import SnippetConsole.Statement.Parts
import SnippetConsole.Statement.Shape

/-!
# The parts of a line

What stands between two semicolons outside brackets is a part of the line. Where
statements are balanced and hold no such semicolon themselves, the parts are the
statements.

* `isInfix_of_mem_statementRuns` — a part is a run of the line.
* `splitFrom_append` — a run without a separator at depth zero stays in one part.
* `statementRuns_row` — statements in a row, with braces around them.
-/

namespace SnippetConsole

/-! ## Parts are runs of the line -/

theorem dropBraces_suffix (ts : List Token) : dropBraces ts <:+ ts := List.dropWhile_suffix _

theorem dropBlockEnd_isPrefix (ts : List Token) : dropBlockEnd ts <+: ts := by
  unfold dropBlockEnd
  simp only [Text.dropEndWhile_eq]
  split
  · split
    · exact List.rdropWhile_prefix _ ts
    · exact List.prefix_refl ts
  · exact List.prefix_refl ts

theorem isInfix_of_mem_statementRuns {ts part : List Token} (h : part ∈ statementRuns ts) :
    part <:+: ts ∧ part ≠ [] := by
  simp only [statementRuns, List.mem_filter, List.mem_map, Bool.not_eq_true',
    List.isEmpty_eq_false_iff] at h
  obtain ⟨⟨part, hpart, rfl⟩, hne⟩ := h
  refine ⟨?_, hne⟩
  calc dropBraces part <:+: part := (dropBraces_suffix part).isInfix
    _ <:+: dropBlockEnd (dropBraces ts) := (splitAtTop_run (fun _ => rfl) .semicolon _).1 _ hpart
    _ <:+: dropBraces ts := (dropBlockEnd_isPrefix _).isInfix
    _ <:+: ts := (dropBraces_suffix ts).isInfix

theorem dropBlockEnd_ne_nil {ts : List Token} (h : ts ≠ []) : dropBlockEnd ts ≠ [] := by
  simp only [dropBlockEnd]
  split
  · next t ht =>
    split
    · intro hnil
      rw [hnil] at ht
      cases ht
    · exact h
  · exact h

/-- The first part starts where the line does. -/
theorem statementRuns_cons {t : Token} (ht : t.kind ≠ .semicolon) (hb : t.isBrace = false)
    (ts : List Token) : ∃ run runs, statementRuns (t :: ts) = (t :: run) :: runs := by
  have hline : dropBraces (t :: ts) = t :: ts := List.dropWhile_cons_of_neg (by simp [hb])
  obtain ⟨body, hbody⟩ : ∃ body, dropBlockEnd (t :: ts) = t :: body := by
    obtain ⟨u, us, hus⟩ := List.exists_cons_of_ne_nil
      (dropBlockEnd_ne_nil (List.cons_ne_nil t ts))
    have hstart := dropBlockEnd_isPrefix (t :: ts)
    rw [hus] at hstart ⊢
    obtain ⟨rfl, -⟩ := List.cons_prefix_cons.1 hstart
    exact ⟨us, rfl⟩
  obtain ⟨part, parts, hparts⟩ := List.exists_cons_of_ne_nil
    (splitFrom_ne_nil .semicolon (0 + t.kind.slope) body)
  have hpart : dropBraces (t :: part) = t :: part := List.dropWhile_cons_of_neg (by simp [hb])
  rw [statementRuns, hline, hbody, splitAtTop, splitFrom, if_neg fun h => ht h.2, hparts,
    List.modifyHead_cons, List.map_cons, hpart, List.filter_cons_of_pos rfl]
  exact ⟨part, _, rfl⟩

/-! ## Parts depend on kinds -/

section

variable {f : Token → Token} (hf : ∀ t, (f t).kind = t.kind)

include hf

theorem isBrace_comp : Token.isBrace ∘ f = Token.isBrace := by
  funext t
  simp [Token.isBrace, hf]

theorem dropBraces_map (ts : List Token) : dropBraces (ts.map f) = (dropBraces ts).map f := by
  rw [dropBraces, List.dropWhile_map, isBrace_comp hf]
  rfl

theorem dropBlockEnd_map (ts : List Token) :
    dropBlockEnd (ts.map f) = (dropBlockEnd ts).map f := by
  have hbody : Text.dropEndWhile Token.isBrace (ts.map f) =
      (Text.dropEndWhile Token.isBrace ts).map f := by
    rw [Text.dropEndWhile, ← List.map_reverse, List.dropWhile_map, isBrace_comp hf,
      ← List.map_reverse]
    rfl
  simp only [dropBlockEnd, hbody, List.getLast?_map]
  cases (Text.dropEndWhile Token.isBrace ts).getLast? with
  | none => rfl
  | some t =>
    simp only [Option.map_some, hf]
    split
    · rfl
    · rfl

theorem statementRuns_map (ts : List Token) :
    statementRuns (ts.map f) = (statementRuns ts).map (List.map f) := by
  have hdrop : dropBraces ∘ List.map f = List.map f ∘ dropBraces :=
    funext fun part => dropBraces_map hf part
  rw [statementRuns, dropBraces_map hf, dropBlockEnd_map hf, (splitAtTop_run hf .semicolon _).2,
    List.map_map, hdrop, ← List.map_map, List.filter_map]
  congr 2
  funext part
  simp

end

/-! ## Semicolons at the end -/

/-- A semicolon at its end does not change what a run is. -/
theorem classify_concat {t : Token} (ht : t.kind = .semicolon) (line : String) (ts : List Token) :
    classify line (ts ++ [t]) = classify line ts := by
  have hdrop : dropSemicolons (ts ++ [t]) = dropSemicolons ts := by
    rw [dropSemicolons, dropSemicolons, Text.dropEndWhile_eq, Text.dropEndWhile_eq,
      List.rdropWhile_concat_pos _ _ _ (by simp [ht])]
  rw [classify, classify, hdrop]

theorem dropSemicolons_cons (t : Token) (ts : List Token) :
    dropSemicolons (t :: ts) =
      if ∀ u ∈ t :: ts, u.kind = .semicolon then [] else t :: dropSemicolons ts := by
  unfold dropSemicolons Text.dropEndWhile
  rw [List.reverse_cons, List.dropWhile_append]
  by_cases hts : ∀ u ∈ ts, u.kind = .semicolon
  · have hnil : ts.reverse.dropWhile (·.kind = .semicolon) = [] := by
      rw [List.dropWhile_eq_nil_iff]
      simpa using hts
    by_cases ht : t.kind = .semicolon
    · simpa [hnil, ht] using hts
    · simp [hnil, ht]
  · have hne : ts.reverse.dropWhile (·.kind = .semicolon) ≠ [] := by
      rw [Ne, List.dropWhile_eq_nil_iff]
      simpa using hts
    have hall : ¬∀ u ∈ t :: ts, u.kind = .semicolon := by
      intro h
      exact hts fun u hu => h u (List.mem_cons_of_mem t hu)
    rw [if_neg (by simpa using hne), if_neg hall]
    simp

/-! ## Statements in a row -/

theorem add_height_of_balancedFrom {depth : Int} {ts : List Token}
    (h : balancedFrom depth ts = true) : depth + height ts = 0 := by
  induction ts generalizing depth with
  | nil => simpa [balancedFrom] using h
  | cons t ts ih =>
    simp only [balancedFrom, Bool.and_eq_true] at h
    rw [height_cons, ← Int.add_assoc]
    exact ih h.2

theorem height_of_balanced {ts : List Token} (h : balanced ts = true) : height ts = 0 := by
  have := add_height_of_balancedFrom h
  omega

/-- Counted from a depth, no separator of the run stands at depth zero. -/
def Solid (separator : Kind) (depth : Int) (ts : List Token) : Prop :=
  ∀ pre t post, ts = pre ++ t :: post → t.kind = separator → depth + height pre ≠ 0

theorem Solid.tail {separator : Kind} {depth : Int} {t : Token} {ts : List Token}
    (h : Solid separator depth (t :: ts)) : Solid separator (depth + t.kind.slope) ts := by
  intro pre u post he hu
  have := h (t :: pre) u post (by rw [he, List.cons_append]) hu
  rwa [height_cons, ← Int.add_assoc] at this

theorem splitFrom_append {separator : Kind} {depth : Int} {run : List Token}
    (h : Solid separator depth run) (ts : List Token) :
    splitFrom separator depth (run ++ ts) =
      (splitFrom separator (depth + height run) ts).modifyHead (run ++ ·) := by
  induction run generalizing depth with
  | nil =>
    rw [height_nil, Int.add_zero]
    exact (congrFun List.modifyHead_id (splitFrom separator depth ts)).symm
  | cons t run ih =>
    have hne : ¬(depth = 0 ∧ t.kind = separator) := by
      rintro ⟨hd, ht⟩
      exact h [] t run rfl ht (by simp [hd])
    rw [List.cons_append, splitFrom, if_neg hne, ih h.tail, height_cons, Int.add_assoc,
      List.modifyHead_modifyHead]
    rfl

theorem splitAtTop_append_cons {separator : Kind} {run : List Token} (hz : height run = 0)
    (hs : Solid separator 0 run) {t : Token} (ht : t.kind = separator) (ts : List Token) :
    splitAtTop separator (run ++ t :: ts) = run :: splitAtTop separator ts := by
  unfold splitAtTop
  rw [splitFrom_append hs, hz, Int.add_zero, splitFrom, if_pos ⟨rfl, ht⟩]
  simp

theorem dropBraces_append {braces : List Token} (h : ∀ b ∈ braces, b.isBrace = true)
    (ts : List Token) : dropBraces (braces ++ ts) = dropBraces ts :=
  List.dropWhile_append_of_pos h

theorem dropBraces_eq_self {ts : List Token} (h : ∀ t ∈ ts.head?, t.isBrace = false) :
    dropBraces ts = ts := by
  cases ts with
  | nil => rfl
  | cons t ts => exact List.dropWhile_cons_of_neg (by simp [h t rfl])

theorem dropBlockEnd_append {braces : List Token} (h : ∀ b ∈ braces, b.isBrace = true)
    (ts : List Token) {t : Token} (ht : t.kind = .semicolon) :
    dropBlockEnd (ts ++ [t] ++ braces) = ts ++ [t] := by
  have hbrace : ¬t.isBrace = true := by simp [Token.isBrace, ht]
  have hbody : Text.dropEndWhile Token.isBrace (ts ++ [t] ++ braces) = ts ++ [t] := by
    rw [Text.dropEndWhile, List.reverse_append, List.dropWhile_append_of_pos (by simpa using h)]
    exact List.rdropWhile_concat_neg Token.isBrace ts t hbrace
  simp only [dropBlockEnd, hbody, List.getLast?_concat, if_pos ht]

/-- A run that is a statement by itself: it can be told from its neighbours by the
semicolon between them. -/
structure Separate (run : List Token) : Prop where
  ne_nil : run ≠ []
  balanced : balanced run = true
  solid : Solid .semicolon 0 run
  bare : ∀ t ∈ run.head?, t.isBrace = false

theorem height_map {f : Token → Token} (hf : ∀ t, (f t).kind = t.kind) (ts : List Token) :
    height (ts.map f) = height ts := by
  induction ts with
  | nil => rfl
  | cons t ts ih => rw [List.map_cons, height_cons, height_cons, hf, ih]

theorem Separate.map {f : Token → Token} (hf : ∀ t, (f t).kind = t.kind) {run : List Token}
    (h : Separate run) : Separate (run.map f) where
  ne_nil := by simpa using h.ne_nil
  balanced := by
    have hsame : SameKinds id f run := fun t _ => (hf t).symm
    rw [balanced_map hsame, List.map_id]
    exact h.balanced
  solid := by
    intro pre t post he ht
    obtain ⟨pre', rest, rfl, rfl, hrest⟩ := List.map_eq_append_iff.1 he
    obtain ⟨t', post', rfl, rfl, rfl⟩ := List.map_eq_cons_iff.1 hrest
    rw [height_map hf]
    exact h.solid pre' t' post' rfl (by rw [← hf, ht])
  bare := by
    intro t ht
    rw [List.head?_map, Option.mem_def, Option.map_eq_some_iff] at ht
    obtain ⟨t', ht', rfl⟩ := ht
    simpa [Token.isBrace, hf] using h.bare t' ht'

theorem splitAtTop_row {row : List (List Token × Token)}
    (h : ∀ p ∈ row, Separate p.1 ∧ p.2.kind = .semicolon) :
    splitAtTop .semicolon (row.flatMap fun p => p.1 ++ [p.2]) = row.map (·.1) ++ [[]] := by
  induction row with
  | nil => rfl
  | cons p row ih =>
    obtain ⟨hp, hsemi⟩ := h p List.mem_cons_self
    rw [List.flatMap_cons, List.append_assoc, List.singleton_append,
      splitAtTop_append_cons (height_of_balanced hp.balanced) hp.solid hsemi,
      ih fun q hq => h q (List.mem_cons_of_mem p hq)]
    rfl

/-- Braces around a row of statements change nothing. -/
theorem statementRuns_row {row : List (List Token × Token)} {lead trail : List Token}
    (hlead : ∀ b ∈ lead, b.isBrace = true) (htrail : ∀ b ∈ trail, b.isBrace = true)
    (hne : row ≠ []) (h : ∀ p ∈ row, Separate p.1 ∧ p.2.kind = .semicolon) :
    statementRuns (lead ++ (row.flatMap (fun p => p.1 ++ [p.2]) ++ trail)) = row.map (·.1) := by
  have hbare : ∀ t ∈ (row.flatMap (fun p => p.1 ++ [p.2]) ++ trail).head?,
      t.isBrace = false := by
    cases row with
    | nil => exact absurd rfl hne
    | cons p row =>
      obtain ⟨hp, -⟩ := h p List.mem_cons_self
      obtain ⟨t, ts, hts⟩ := List.exists_cons_of_ne_nil hp.ne_nil
      have := hp.bare
      simpa [hts] using this
  -- the row ends in a semicolon, so the braces behind it are those of a block
  obtain ⟨row', p, hrow⟩ := (List.eq_nil_or_concat' row).resolve_left hne
  have hend : row.flatMap (fun p => p.1 ++ [p.2]) =
      (row'.flatMap (fun p => p.1 ++ [p.2]) ++ p.1) ++ [p.2] := by
    rw [hrow]
    simp
  have hsemi : p.2.kind = .semicolon := (h p (by simp [hrow])).2
  have hparts : ∀ ts ∈ row.map (·.1), dropBraces ts = ts ∧ ts ≠ [] := by
    intro ts hts
    obtain ⟨q, hq, rfl⟩ := List.mem_map.1 hts
    exact ⟨dropBraces_eq_self (h q hq).1.bare, (h q hq).1.ne_nil⟩
  rw [statementRuns, dropBraces_append hlead, dropBraces_eq_self hbare, hend,
    dropBlockEnd_append htrail _ hsemi, ← hend, splitAtTop_row h, List.map_append,
    List.filter_append, List.map_congr_left fun ts hts => (hparts ts hts).1, List.map_id',
    List.filter_eq_self.2 fun ts hts => by simpa using (hparts ts hts).2]
  simp [dropBraces]

end SnippetConsole
