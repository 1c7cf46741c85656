import Mathlib
import SnippetConsole.Proofs.Statement.Parts
import SnippetConsole.Token.Lexer

/-!
# Semicolons between statements

A line is divided by one depth that counts all of its brackets, while braces are
dropped in front of each part. A brace that closes a block between two statements
takes the depth below zero, and a block that is opened there takes it above; from
then on semicolons no longer divide, until the depth comes back to zero.

* `openAtEnd_iff` — the brackets open at the end of a run, counted.
* `divided_statementRuns_iff` — the lines whose parts hold no semicolon outside
  brackets.
-/

namespace SnippetConsole

/-! ## Open brackets -/

/-- Starting at a depth, nothing in the run brings it to zero. -/
def StaysAbove (depth : Int) (ts : List Token) : Prop := ∀ c, c <+: ts → 0 < depth + height c

theorem StaysAbove.pos {depth : Int} {ts : List Token} (h : StaysAbove depth ts) : 0 < depth := by
  simpa using h [] List.nil_prefix

theorem StaysAbove.mono {depth depth' : Int} {ts : List Token} (h : StaysAbove depth ts)
    (hd : depth ≤ depth') : StaysAbove depth' ts := by
  intro c hc
  have := h c hc
  omega

theorem staysAbove_cons_iff {depth : Int} {t : Token} {ts : List Token} :
    StaysAbove depth (t :: ts) ↔ 0 < depth ∧ StaysAbove (depth + t.kind.slope) ts := by
  constructor
  · intro h
    refine ⟨h.pos, ?_⟩
    intro c hc
    have := h (t :: c) (List.cons_prefix_cons.2 ⟨rfl, hc⟩)
    rwa [height_cons, ← Int.add_assoc] at this
  · rintro ⟨hd, h⟩ c hc
    rcases List.prefix_cons_iff.1 hc with rfl | ⟨c', rfl, hc'⟩
    · simpa using hd
    · rw [height_cons, ← Int.add_assoc]
      exact h c' hc'

/-- A bracket of the run is opened and not closed in the rest of the run. -/
def OpenAtEnd (ts : List Token) : Prop :=
  ∃ a o b, ts = a ++ o :: b ∧ (∃ bracket, o.kind = .opening bracket) ∧ StaysAbove 1 b

theorem openAtEnd_cons_iff {t : Token} {ts : List Token} :
    OpenAtEnd (t :: ts) ↔
      OpenAtEnd ts ∨ (∃ bracket, t.kind = .opening bracket) ∧ StaysAbove 1 ts := by
  constructor
  · rintro ⟨a, o, b, he, ho, hb⟩
    cases a with
    | nil =>
      obtain ⟨rfl, rfl⟩ := List.cons.inj he
      exact .inr ⟨ho, hb⟩
    | cons _ a =>
      obtain ⟨rfl, rfl⟩ := List.cons.inj he
      exact .inl ⟨a, o, b, rfl, ho, hb⟩
  · rintro (⟨a, o, b, rfl, ho, hb⟩ | ⟨ho, hb⟩)
    · exact ⟨t :: a, o, b, rfl, ho, hb⟩
    · exact ⟨[], t, ts, rfl, ho, hb⟩

/-- The number of open brackets after a token. A closing bracket closes nothing if
none is open. -/
def Token.opened (t : Token) (n : Nat) : Nat := (n + t.kind.slope).toNat

theorem slope_cases (t : Token) :
    (t.kind.slope = 1 ∧ ∃ bracket, t.kind = .opening bracket) ∨
      (t.kind.slope ≤ 0 ∧ ¬∃ bracket, t.kind = .opening bracket) := by
  cases h : t.kind with
  | opening bracket => exact .inl ⟨rfl, bracket, rfl⟩
  | _ => exact .inr (by simp [Kind.slope])

/-- Starting with `n` open brackets, one of them or one of the run is open at the
end. -/
theorem opened_pos_iff {n : Nat} {ts : List Token} :
    0 < ts.foldl (fun n t => t.opened n) n ↔ OpenAtEnd ts ∨ StaysAbove n ts := by
  induction ts generalizing n with
  | nil =>
    constructor
    · intro h
      right
      intro c hc
      rw [List.prefix_nil.1 hc, height_nil]
      simpa using h
    · rintro (⟨a, o, b, he, -⟩ | h)
      · simp at he
      · simpa using h.pos
  | cons t ts ih =>
    rw [List.foldl_cons, ih, openAtEnd_cons_iff, staysAbove_cons_iff]
    rcases slope_cases t with ⟨hs, ho⟩ | ⟨hs, ho⟩
    · -- the new bracket is the one that stays open, or it lies within an older one
      have hopened : ((t.opened n : Nat) : Int) = n + 1 := by
        simp only [Token.opened, hs]
        omega
      rw [hopened, hs]
      constructor
      · rintro (h | h)
        · exact .inl (.inl h)
        · rcases Nat.eq_zero_or_pos n with rfl | hn
          · exact .inl (.inr ⟨ho, by simpa using h⟩)
          · exact .inr ⟨by omega, h⟩
      · rintro ((h | ⟨-, h⟩) | ⟨-, h⟩)
        · exact .inl h
        · exact .inr (h.mono (by omega))
        · exact .inr h
    · -- a closing bracket closes an older one, if any is open
      simp only [ho, false_and, or_false]
      constructor
      · rintro (h | h)
        · exact .inl h
        · have hpos := h.pos
          simp only [Token.opened] at hpos
          exact .inr ⟨by omega, h.mono (by simp only [Token.opened]; omega)⟩
      · rintro (h | ⟨-, h⟩)
        · exact .inl h
        · exact .inr (h.mono (by simp only [Token.opened]; omega))

theorem openAtEnd_iff {ts : List Token} :
    OpenAtEnd ts ↔ 0 < ts.foldl (fun n t => t.opened n) 0 := by
  rw [opened_pos_iff]
  constructor
  · exact .inl
  · rintro (h | h)
    · exact h
    · exact absurd h.pos (by simp)

/-! ## Parts without a semicolon between statements -/

/-- But for the semicolons at its end, every semicolon of the part stands inside a
bracket that is opened in the part. -/
def Divided (part : List Token) : Prop :=
  ∀ pre t post, dropSemicolons part = pre ++ t :: post → t.kind = .semicolon → OpenAtEnd pre

/-- Starting in front of the part or not, with so many brackets open, what follows
a semicolon outside brackets is nothing but semicolons. -/
def Settled : (front : Bool) → (opened : Nat) → List Token → Prop
  | _, _, [] => True
  | front, opened, t :: ts =>
    if t.kind = .semicolon ∧ opened = 0 then ∀ u ∈ ts, u.kind = .semicolon
    else if front && t.isBrace then Settled true 0 ts
    else Settled false (t.opened opened) ts

/-- One part, read token by token. -/
theorem settled_iff {n : Nat} {part : List Token} :
    Settled false n part ↔ ∀ pre t post, dropSemicolons part = pre ++ t :: post →
      t.kind = .semicolon → 0 < pre.foldl (fun n t => t.opened n) n := by
  induction part generalizing n with
  | nil => simp [Settled, dropSemicolons, Text.dropEndWhile]
  | cons t ts ih =>
    simp only [Settled, Bool.false_and, Bool.false_eq_true, if_false, ih]
    rw [dropSemicolons_cons]
    by_cases hall : ∀ u ∈ t :: ts, u.kind = .semicolon
    · -- there is nothing behind the semicolons
      have hts : ∀ u ∈ ts, u.kind = .semicolon := fun u hu => hall u (List.mem_cons_of_mem t hu)
      have hnil : dropSemicolons ts = [] := by
        cases ts with
        | nil => rfl
        | cons u us => rw [dropSemicolons_cons, if_pos hts]
      rw [if_pos hall, hnil]
      simpa using fun _ _ => hts
    · rw [if_neg hall]
      by_cases htop : t.kind = .semicolon ∧ n = 0
      · rw [if_pos htop]
        constructor
        · intro hts
          exact absurd (by simpa [htop.1] using hts) hall
        · intro h
          exact absurd (h [] t _ rfl htop.1) (by simp [htop.2])
      · rw [if_neg htop]
        constructor
        · intro h pre u post he hu
          cases pre with
          | nil =>
            obtain rfl := (List.cons.inj he).1
            exact Nat.pos_of_ne_zero fun hn => htop ⟨hu, hn⟩
          | cons _ pre =>
            obtain ⟨rfl, he'⟩ := List.cons.inj he
            exact h pre u post he' hu
        · intro h pre u post he hu
          exact h (t :: pre) u post (by rw [he, List.cons_append]) hu

theorem divided_iff_settled {part : List Token} : Divided part ↔ Settled false 0 part := by
  rw [settled_iff]
  simp only [Divided, openAtEnd_iff]

theorem settled_dropBraces {part : List Token} :
    Settled false 0 (dropBraces part) ↔ Settled true 0 part := by
  induction part with
  | nil => rfl
  | cons t ts ih =>
    by_cases hb : t.isBrace = true
    · have hsemi : ¬(t.kind = .semicolon ∧ 0 = 0) := by
        rintro ⟨ht, -⟩
        simp [Token.isBrace, ht] at hb
      have hdrop : dropBraces (t :: ts) = dropBraces ts := List.dropWhile_cons_of_pos hb
      rw [hdrop, ih, Settled, if_neg hsemi, if_pos (by simp [hb])]
    · have hdrop : dropBraces (t :: ts) = t :: ts := List.dropWhile_cons_of_neg hb
      rw [hdrop]
      simp only [Settled, Bool.false_and, Bool.true_and, hb]

/-! ## Segments of a line -/

/-- The segments of a run, cut at each semicolon where no bracket of the segment is
open or as many were closed as were opened. `front` says that only braces were
read of the segment; these count for its level but open nothing. -/
def segmentsFrom (front : Bool) (opened : Nat) (level : Int) : List Token → List (List Token)
  | [] => [[]]
  | t :: ts =>
    if t.kind = .semicolon ∧ (opened = 0 ∨ level = 0) then [] :: segmentsFrom true 0 0 ts
    else if front && t.isBrace then
      (segmentsFrom true 0 (level + t.kind.slope) ts).modifyHead (t :: ·)
    else (segmentsFrom false (t.opened opened) (level + t.kind.slope) ts).modifyHead (t :: ·)

/-- The segments of a run. -/
def segments (ts : List Token) : List (List Token) := segmentsFrom true 0 0 ts

/-- Each segment that something follows brings the level back to zero. -/
def Levelled : (level : Int) → List (List Token) → Prop
  | _, [] => True
  | level, segment :: later =>
    (∀ p ∈ later, p = []) ∨ level + height segment = 0 ∧ Levelled 0 later

theorem levelled_of_forall_nil {level : Int} {later : List (List Token)}
    (h : ∀ p ∈ later, p = []) : Levelled level later := by
  cases later with
  | nil => trivial
  | cons segment later => exact .inl fun p hp => h p (List.mem_cons_of_mem segment hp)

theorem levelled_nil_cons {later : List (List Token)} :
    Levelled 0 ([] :: later) ↔ Levelled 0 later := by
  constructor
  · rintro (h | ⟨-, h⟩)
    · exact levelled_of_forall_nil h
    · exact h
  · intro h
    exact .inr ⟨rfl, h⟩

theorem levelled_modifyHead {level : Int} {t : Token} {all : List (List Token)} (hne : all ≠ []) :
    Levelled level (all.modifyHead (t :: ·)) ↔ Levelled (level + t.kind.slope) all := by
  cases all with
  | nil => exact absurd rfl hne
  | cons segment later =>
    simp only [List.modifyHead_cons, Levelled, height_cons, Int.add_assoc]

theorem levelled_zero_iff {all : List (List Token)} :
    Levelled 0 all ↔ ∀ before segment after, all = before ++ segment :: after →
      (∃ p ∈ after, p ≠ []) → height segment = 0 := by
  induction all with
  | nil => simp [Levelled]
  | cons first all ih =>
    constructor
    · rintro (h | ⟨hfirst, h⟩) before segment after he hafter
      · cases before with
        | nil =>
          obtain ⟨rfl, rfl⟩ := List.cons.inj he
          obtain ⟨p, hp, hne⟩ := hafter
          exact absurd (h p hp) hne
        | cons _ before =>
          obtain ⟨rfl, rfl⟩ := List.cons.inj he
          obtain ⟨p, hp, hne⟩ := hafter
          exact absurd (h p (List.mem_append_right _ (List.mem_cons_of_mem segment hp))) hne
      · cases before with
        | nil =>
          obtain ⟨rfl, rfl⟩ := List.cons.inj he
          simpa using hfirst
        | cons _ before =>
          obtain ⟨rfl, he'⟩ := List.cons.inj he
          exact ih.1 h before segment after he' hafter
    · intro h
      by_cases hlater : ∀ p ∈ all, p = []
      · exact .inl hlater
      · refine .inr ⟨?_, ih.2 fun before segment after he => h (first :: before) segment after ?_⟩
        · rw [Int.zero_add]
          exact h [] first all rfl (by simpa using hlater)
        · rw [he, List.cons_append]

theorem segmentsFrom_ne_nil (front : Bool) (opened : Nat) (level : Int) (ts : List Token) :
    segmentsFrom front opened level ts ≠ [] := by
  induction ts generalizing front opened level with
  | nil => simp [segmentsFrom]
  | cons t ts ih =>
    unfold segmentsFrom
    split
    · simp
    · split
      · simp [ih]
      · simp [ih]

theorem forall_segmentsFrom_nil {front : Bool} {ts : List Token} :
    (∀ p ∈ segmentsFrom front 0 0 ts, p = []) ↔ ∀ t ∈ ts, t.kind = .semicolon := by
  induction ts generalizing front with
  | nil => simp [segmentsFrom]
  | cons t ts ih =>
    unfold segmentsFrom
    by_cases ht : t.kind = .semicolon
    · simp [ht, ih]
    · have hhead {f : Bool} {n : Nat} {level : Int} :
          ¬∀ p ∈ (segmentsFrom f n level ts).modifyHead (t :: ·), p = [] := by
        obtain ⟨p, ps, hps⟩ := List.exists_cons_of_ne_nil (segmentsFrom_ne_nil f n level ts)
        simp [hps]
      rw [if_neg fun h => ht h.1]
      split
      · simp [hhead, ht]
      · simp [hhead, ht]

theorem splitFrom_cons_of_not {depth : Int} {t : Token} {ts part : List Token}
    {parts : List (List Token)} (hcut : ¬(depth = 0 ∧ t.kind = .semicolon))
    (h : splitFrom .semicolon depth (t :: ts) = part :: parts) :
    ∃ p, part = t :: p ∧ splitFrom .semicolon (depth + t.kind.slope) ts = p :: parts := by
  rw [splitFrom, if_neg hcut] at h
  obtain ⟨p, ps, hps⟩ := List.exists_cons_of_ne_nil
    (splitFrom_ne_nil .semicolon (depth + t.kind.slope) ts)
  rw [hps, List.modifyHead_cons] at h
  obtain ⟨rfl, rfl⟩ := List.cons.inj h
  exact ⟨p, rfl, hps⟩

/-- Away from depth zero semicolons alone do not divide. -/
theorem splitFrom_semicolons {depth : Int} (hd : depth ≠ 0) {ts part : List Token}
    {parts : List (List Token)} (h : splitFrom .semicolon depth ts = part :: parts) :
    ((∀ t ∈ part, t.kind = .semicolon) ↔ ∀ t ∈ ts, t.kind = .semicolon) ∧
      ((∀ t ∈ ts, t.kind = .semicolon) → parts = []) := by
  induction ts generalizing part with
  | nil =>
    obtain ⟨rfl, rfl⟩ := List.cons.inj h
    simp
  | cons t ts ih =>
    obtain ⟨p, rfl, hp⟩ := splitFrom_cons_of_not (fun h => hd h.1) h
    by_cases ht : t.kind = .semicolon
    · have hslope : depth + t.kind.slope = depth := by simp [ht, Kind.slope]
      rw [hslope] at hp
      simpa [ht] using ih hp
    · simp [ht]

/-- Nothing is left between statements in the parts of a run exactly if its segments
come back to the level at which they start. -/
theorem settled_splitFrom_iff (front : Bool) (opened : Nat) {level : Int}
    {ts part : List Token} {parts : List (List Token)}
    (h : splitFrom .semicolon level ts = part :: parts) :
    (Settled front opened part ∧ ∀ p ∈ parts, Settled true 0 p) ↔
      Levelled level (segmentsFrom front opened level ts) := by
  induction ts generalizing front opened level part parts with
  | nil =>
    obtain ⟨rfl, rfl⟩ := List.cons.inj h
    simp [Settled, segmentsFrom, Levelled]
  | cons t ts ih =>
    by_cases hsplit : level = 0 ∧ t.kind = .semicolon
    · -- the semicolon divides, and a segment ends there
      obtain ⟨rfl, ht⟩ := hsplit
      rw [splitFrom, if_pos ⟨rfl, ht⟩] at h
      obtain ⟨rfl, rfl⟩ := List.cons.inj h
      obtain ⟨p, ps, hps⟩ := List.exists_cons_of_ne_nil (splitFrom_ne_nil .semicolon 0 ts)
      have hrest := ih true 0 hps
      rw [segmentsFrom, if_pos ⟨ht, .inr rfl⟩, levelled_nil_cons, ← hrest, hps]
      simp [Settled]
    · obtain ⟨p, rfl, hp⟩ := splitFrom_cons_of_not hsplit h
      by_cases hcut : t.kind = .semicolon ∧ opened = 0
      · -- a segment ends there, but the semicolon does not divide
        obtain ⟨ht, rfl⟩ := hcut
        have hlevel : level ≠ 0 := fun hl => hsplit ⟨hl, ht⟩
        have hslope : level + t.kind.slope = level := by simp [ht, Kind.slope]
        rw [hslope] at hp
        obtain ⟨hsame, hone⟩ := splitFrom_semicolons hlevel hp
        rw [segmentsFrom, if_pos ⟨ht, .inl rfl⟩, Levelled, forall_segmentsFrom_nil, Settled,
          if_pos ⟨ht, rfl⟩, hsame]
        constructor
        · intro hts
          exact .inl hts.1
        · rintro (hts | ⟨hzero, -⟩)
          · exact ⟨hts, by simp [hone hts]⟩
          · exact absurd (by simpa using hzero) hlevel
      · have hsegment : ¬(t.kind = .semicolon ∧ (opened = 0 ∨ level = 0)) := by
          rintro ⟨ht, ho | hl⟩
          · exact hcut ⟨ht, ho⟩
          · exact hsplit ⟨hl, ht⟩
        rw [segmentsFrom, if_neg hsegment, Settled, if_neg hcut]
        split
        · rw [levelled_modifyHead (segmentsFrom_ne_nil _ _ _ _), ← ih _ _ hp]
        · rw [levelled_modifyHead (segmentsFrom_ne_nil _ _ _ _), ← ih _ _ hp]

/-- A line is divided at all of its semicolons between statements exactly if as many
brackets are closed as are opened in each of its segments that something follows. -/
theorem divided_statementRuns_iff (ts : List Token) :
    (∀ part ∈ statementRuns ts, Divided part) ↔
      ∀ before segment after,
        segments (dropBlockEnd (dropBraces ts)) = before ++ segment :: after →
          (∃ p ∈ after, p ≠ []) → height segment = 0 := by
  obtain ⟨part, parts, hparts⟩ := List.exists_cons_of_ne_nil
    (splitAtTop_ne_nil .semicolon (dropBlockEnd (dropBraces ts)))
  have hruns : (∀ run ∈ statementRuns ts, Divided run) ↔
      ∀ run ∈ part :: parts, Settled true 0 run := by
    rw [statementRuns, hparts]
    constructor
    · intro h run hrun
      rw [← settled_dropBraces, ← divided_iff_settled]
      by_cases hnil : dropBraces run = []
      · -- nothing but braces is no part, and needs no brackets around it
        rw [hnil, divided_iff_settled]
        trivial
      · exact h _ (List.mem_filter.2 ⟨List.mem_map_of_mem hrun, by simpa using hnil⟩)
    · intro h run hrun
      obtain ⟨raw, hraw, rfl⟩ := List.mem_map.1 (List.mem_filter.1 hrun).1
      rw [divided_iff_settled, settled_dropBraces]
      exact h raw hraw
  rw [hruns, List.forall_mem_cons, ← levelled_zero_iff]
  exact settled_splitFrom_iff true 0 hparts

/-- A block that ends between statements hides the semicolons behind it. -/
theorem not_divided_of_blockEnd :
    ¬∀ (line : String) (ts : List Token), lex line = .ok ts →
      ∀ part ∈ statementRuns ts, Divided part := by
  intro h
  have hlex : lex "\x7b a(); \x7d b(); c();" =
      .ok [⟨.opening .curly, ⟨0, 1⟩⟩, ⟨.word "a", ⟨2, 3⟩⟩, ⟨.opening .round, ⟨3, 4⟩⟩,
        ⟨.closing .round, ⟨4, 5⟩⟩, ⟨.semicolon, ⟨5, 6⟩⟩, ⟨.closing .curly, ⟨7, 8⟩⟩,
        ⟨.word "b", ⟨9, 10⟩⟩, ⟨.opening .round, ⟨10, 11⟩⟩, ⟨.closing .round, ⟨11, 12⟩⟩,
        ⟨.semicolon, ⟨12, 13⟩⟩, ⟨.word "c", ⟨14, 15⟩⟩, ⟨.opening .round, ⟨15, 16⟩⟩,
        ⟨.closing .round, ⟨16, 17⟩⟩, ⟨.semicolon, ⟨17, 18⟩⟩] := by cbv
  have hdivided := h _ _ hlex
    [⟨.word "b", ⟨9, 10⟩⟩, ⟨.opening .round, ⟨10, 11⟩⟩, ⟨.closing .round, ⟨11, 12⟩⟩,
      ⟨.semicolon, ⟨12, 13⟩⟩, ⟨.word "c", ⟨14, 15⟩⟩, ⟨.opening .round, ⟨15, 16⟩⟩,
      ⟨.closing .round, ⟨16, 17⟩⟩, ⟨.semicolon, ⟨17, 18⟩⟩] (by decide)
  have hopen := hdivided
    [⟨.word "b", ⟨9, 10⟩⟩, ⟨.opening .round, ⟨10, 11⟩⟩, ⟨.closing .round, ⟨11, 12⟩⟩]
    ⟨.semicolon, ⟨12, 13⟩⟩ _ rfl rfl
  rw [openAtEnd_iff] at hopen
  exact absurd hopen (by decide)

end SnippetConsole
