import SnippetConsole.Proofs.Statement.Parts

/-!
# The parts of a line lie side by side

No token of a line is in two of its parts, and the tokens that are in none of them are
semicolons and braces.

* `splitFrom_eq_cons` — the first part of a run, and the separator behind it.
* `Scattered.filter` — parts may be left out where nothing of interest is in them.
* `scattered_statementRuns` — the parts of a line and what is between them.
-/

namespace SnippetConsole

/-! ## Runs side by side -/

/-- The runs lie in the list one behind the other, in order. Each element that is in
none of them has the property. -/
inductive Scattered {α : Type} (p : α → Prop) : List (List α) → List α → Prop
  | nil {after : List α} : (∀ x ∈ after, p x) → Scattered p [] after
  | cons {before run after : List α} {runs : List (List α)} :
      (∀ x ∈ before, p x) → Scattered p runs after →
      Scattered p (run :: runs) (before ++ run ++ after)

namespace Scattered

variable {α : Type} {p : α → Prop} {runs : List (List α)} {xs : List α}

theorem part (run : List α) (h : Scattered p runs xs) : Scattered p (run :: runs) (run ++ xs) :=
  @cons α p [] run xs runs (List.forall_mem_nil p) h

theorem prepend {before : List α} (hbefore : ∀ x ∈ before, p x) (h : Scattered p runs xs) :
    Scattered p runs (before ++ xs) := by
  cases h with
  | nil hafter => exact .nil fun x hx => (List.mem_append.1 hx).elim (hbefore x) (hafter x)
  | cons hgap h =>
    rw [← List.append_assoc, ← List.append_assoc]
    exact .cons (fun x hx => (List.mem_append.1 hx).elim (hbefore x) (hgap x)) h

theorem append {after : List α} (h : Scattered p runs xs) (hafter : ∀ x ∈ after, p x) :
    Scattered p runs (xs ++ after) := by
  induction h with
  | nil hend => exact .nil fun x hx => (List.mem_append.1 hx).elim (hend x) (hafter x)
  | cons hgap _ ih =>
    rw [List.append_assoc]
    exact .cons hgap ih

theorem mono {q : α → Prop} (h : Scattered p runs xs) (hpq : ∀ x, p x → q x) :
    Scattered q runs xs := by
  induction h with
  | nil hend => exact .nil fun x hx => hpq x (hend x hx)
  | cons hgap _ ih => exact .cons (fun x hx => hpq x (hgap x hx)) ih

/-- Runs may lose elements of the property at their starts. -/
theorem map {f : List α → List α} (h : Scattered p runs xs)
    (hf : ∀ run, ∃ start, start ++ f run = run ∧ ∀ x ∈ start, p x) :
    Scattered p (runs.map f) xs := by
  induction h with
  | nil hend => exact .nil hend
  | @cons before run after runs hgap _ ih =>
    obtain ⟨start, hrun, hstart⟩ := hf run
    have hxs : before ++ run ++ after = before ++ start ++ f run ++ after := by
      rw [List.append_assoc before start, hrun]
    rw [hxs]
    exact .cons (fun x hx => (List.mem_append.1 hx).elim (hgap x) (hstart x)) ih

/-- Runs of nothing but elements of the property may be left out. -/
theorem filter {q : List α → Bool} (h : Scattered p runs xs)
    (hq : ∀ run ∈ runs, q run = false → ∀ x ∈ run, p x) : Scattered p (runs.filter q) xs := by
  induction h with
  | nil hend => exact .nil hend
  | @cons before run after runs hgap _ ih =>
    have hrest := ih fun r hr => hq r (List.mem_cons_of_mem run hr)
    cases hrun : q run with
    | true =>
      rw [List.filter_cons_of_pos hrun]
      exact .cons hgap hrest
    | false =>
      rw [List.filter_cons_of_neg (by simp [hrun]), List.append_assoc]
      exact (hrest.prepend (hq run List.mem_cons_self hrun)).prepend hgap

end Scattered

/-! ## The parts of a run -/

/-- The first part takes the whole run, or a separator stands behind it and the other
parts are those of the rest. -/
theorem splitFrom_eq_cons {separator : Kind} {depth : Int} {ts part : List Token}
    {parts : List (List Token)} (h : splitFrom separator depth ts = part :: parts) :
    (ts = part ∧ parts = []) ∨
      ∃ t rest, ts = part ++ t :: rest ∧ t.kind = separator ∧
        splitAtTop separator rest = parts := by
  induction ts generalizing depth part with
  | nil =>
    obtain ⟨rfl, rfl⟩ := List.cons.inj h
    exact .inl ⟨rfl, rfl⟩
  | cons t ts ih =>
    unfold splitFrom at h
    split at h
    · next hcut =>
      obtain ⟨rfl, ht⟩ := hcut
      obtain ⟨rfl, rfl⟩ := List.cons.inj h
      exact .inr ⟨t, ts, rfl, ht, rfl⟩
    · obtain ⟨first, later, hsplit⟩ := List.exists_cons_of_ne_nil
        (splitFrom_ne_nil separator (depth + t.kind.slope) ts)
      rw [hsplit, List.modifyHead_cons] at h
      obtain ⟨rfl, rfl⟩ := List.cons.inj h
      rcases ih hsplit with ⟨rfl, rfl⟩ | ⟨u, rest, rfl, hu, hrest⟩
      · exact .inl ⟨rfl, rfl⟩
      · exact .inr ⟨u, rest, rfl, hu, hrest⟩

/-- What stands between two parts is the separator. -/
theorem scattered_splitAtTop (separator : Kind) (ts : List Token) :
    Scattered (fun t => t.kind = separator) (splitAtTop separator ts) ts := by
  induction hparts : splitAtTop separator ts generalizing ts with
  | nil => exact absurd hparts (splitAtTop_ne_nil separator ts)
  | cons part parts ih =>
    rcases splitFrom_eq_cons hparts with ⟨rfl, rfl⟩ | ⟨t, rest, rfl, ht, hrest⟩
    · have hend : Scattered (fun t => t.kind = separator) [] ([] : List Token) := .nil (by simp)
      simpa using hend.part ts
    · have hbefore : ∀ u ∈ [t], u.kind = separator := by simpa using ht
      exact ((ih rest hrest).prepend hbefore).part part

/-! ## The parts of a line -/

/-- The token may stand between statements. -/
def Token.isBetween (t : Token) : Prop := t.kind = .semicolon ∨ t.isBrace = true

theorem exists_dropBraces (ts : List Token) :
    ∃ braces, braces ++ dropBraces ts = ts ∧ ∀ t ∈ braces, t.isBrace = true :=
  ⟨ts.takeWhile Token.isBrace, List.takeWhile_append_dropWhile,
    List.all_eq_true.1 List.all_takeWhile⟩

theorem exists_dropBlockEnd (ts : List Token) :
    ∃ braces, dropBlockEnd ts ++ braces = ts ∧ ∀ t ∈ braces, t.isBrace = true := by
  unfold dropBlockEnd
  simp only [Text.dropEndWhile_eq]
  split
  · split
    · refine ⟨ts.rtakeWhile Token.isBrace, List.rdropWhile_append_rtakeWhile, ?_⟩
      exact fun t => List.mem_rtakeWhile_imp
    · exact ⟨[], List.append_nil ts, by simp⟩
  · exact ⟨[], List.append_nil ts, by simp⟩

theorem scattered_statementRuns (ts : List Token) :
    Scattered Token.isBetween (statementRuns ts) ts := by
  obtain ⟨lead, hlead, hbraces⟩ := exists_dropBraces ts
  obtain ⟨trail, htrail, hbraces'⟩ := exists_dropBlockEnd (dropBraces ts)
  -- from the parts between semicolons to those of the line, and outwards to the line
  have hsplit : Scattered Token.isBetween
      (splitAtTop .semicolon (dropBlockEnd (dropBraces ts))) (dropBlockEnd (dropBraces ts)) :=
    (scattered_splitAtTop .semicolon _).mono fun _ => .inl
  have hparts := hsplit.map fun part => by
    obtain ⟨braces, hpart, h⟩ := exists_dropBraces part
    exact ⟨braces, hpart, fun t ht => .inr (h t ht)⟩
  have hruns : Scattered Token.isBetween (statementRuns ts) (dropBlockEnd (dropBraces ts)) :=
    hparts.filter fun run _ hrun => by
      have hnil : run = [] := by simpa using hrun
      simp [hnil]
  have hwhole := (hruns.append fun t ht => .inr (hbraces' t ht)).prepend fun t ht =>
    .inr (hbraces t ht)
  rwa [htrail, hlead] at hwhole

/-- A part starts in no brace. -/
theorem isBrace_head_of_mem_statementRuns {ts part : List Token} (h : part ∈ statementRuns ts) :
    ∀ t ∈ part.head?, t.isBrace = false := by
  obtain ⟨raw, -, rfl⟩ := List.mem_map.1 (List.mem_filter.1 h).1
  exact Text.of_mem_head?_dropWhile

end SnippetConsole
