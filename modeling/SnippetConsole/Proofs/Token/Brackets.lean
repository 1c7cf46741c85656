import SnippetConsole.Proofs.Token.Kinds

/-!
# Balanced runs and enclosed runs

The readers of brackets go through a run token by token with a depth. What they
decide can be said of the run alone: whether the depth of some beginning of it falls
below zero, and where it first comes back to zero.

* `balanced_iff` — a run is balanced if no beginning of it falls below zero and the
  whole comes back to zero.
* `Enclosed` — an opening bracket, up to where the depth first comes back to zero.
* `bracketed?_eq_some_iff`, `enclosed_cons_iff` — the readers find just that.
* `enclosed_iff` — what is enclosed is balanced, in brackets of any two shapes.
-/

namespace SnippetConsole

variable {depth : Int} {ts us inside after : List Token} {t closer : Token}

theorem Kind.neg_one_le_slope (kind : Kind) : -1 ≤ kind.slope := by
  cases kind <;> simp [slope]

theorem Kind.eq_closing_of_slope {kind : Kind} (h : kind.slope < 0) :
    ∃ shape, kind = .closing shape := by
  cases kind with
  | closing shape => exact ⟨shape, rfl⟩
  | _ => simp [slope] at h

theorem forall_isPrefix_cons_iff {P : List Token → Prop} :
    (∀ pre, pre <+: t :: ts → P pre) ↔ P [] ∧ ∀ pre, pre <+: ts → P (t :: pre) := by
  constructor
  · intro h
    exact ⟨h [] List.nil_prefix, fun pre hpre => h _ (List.cons_prefix_cons.2 ⟨rfl, hpre⟩)⟩
  · rintro ⟨hnil, hcons⟩ pre hpre
    rcases List.prefix_cons_iff.1 hpre with rfl | ⟨pre, rfl, htail⟩
    · exact hnil
    · exact hcons pre htail

/-! ## Balanced runs -/

/-- From a depth that is not negative, a run is balanced if the depth stays so and comes
back to zero. -/
theorem balancedFrom_iff (hdepth : 0 ≤ depth) :
    balancedFrom depth ts = true ↔
      (∀ pre, pre <+: ts → 0 ≤ depth + height pre) ∧ depth + height ts = 0 := by
  induction ts generalizing depth with
  | nil => simp [balancedFrom, hdepth]
  | cons t ts ih =>
    simp only [balancedFrom, Bool.and_eq_true, decide_eq_true_eq, forall_isPrefix_cons_iff,
      height_nil, Int.add_zero, height_cons, ← Int.add_assoc]
    constructor
    · rintro ⟨ht, hts⟩
      obtain ⟨habove, hzero⟩ := (ih ht).1 hts
      exact ⟨⟨hdepth, habove⟩, hzero⟩
    · rintro ⟨⟨-, habove⟩, hzero⟩
      have ht : 0 ≤ depth + t.kind.slope := by simpa using habove [] List.nil_prefix
      exact ⟨ht, (ih ht).2 ⟨habove, hzero⟩⟩

theorem balanced_iff :
    balanced ts = true ↔ (∀ pre, pre <+: ts → 0 ≤ height pre) ∧ height ts = 0 := by
  rw [balanced, balancedFrom_iff (Int.le_refl 0)]
  simp only [Int.zero_add]

theorem balanced_append (hts : balanced ts = true) (hus : balanced us = true) :
    balanced (ts ++ us) = true := by
  obtain ⟨habove, hzero⟩ := balanced_iff.1 hts
  obtain ⟨habove', hzero'⟩ := balanced_iff.1 hus
  refine balanced_iff.2 ⟨fun pre hpre => ?_, by rw [height_append, hzero, hzero', Int.add_zero]⟩
  rcases List.prefix_or_prefix_of_prefix hpre (List.prefix_append ts us) with hts | ⟨pre, rfl⟩
  · exact habove pre hts
  · rw [height_append, hzero, Int.zero_add]
    exact habove' pre ((List.prefix_append_right_inj ts).1 hpre)

/-- A token that is no bracket does not matter for the balance. -/
theorem balanced_cons_of_flat (ht : t.kind.slope = 0) : balanced (t :: ts) = balanced ts := by
  simp [balanced, balancedFrom, ht]

theorem balanced_of_flat (h : ∀ t ∈ ts, t.kind.slope = 0) : balanced ts = true := by
  induction ts with
  | nil => rfl
  | cons t ts ih =>
    obtain ⟨ht, hts⟩ := List.forall_mem_cons.1 h
    rw [balanced_cons_of_flat ht, ih hts]

/-! ## Enclosed runs -/

theorem untilClosed_eq_some_iff (hdepth : 0 < depth) :
    untilClosed depth ts = some (inside, closer, after) ↔
      ts = inside ++ closer :: after ∧ depth + height (inside ++ [closer]) = 0 ∧
        ∀ pre, pre <+: inside → depth + height pre ≠ 0 := by
  induction ts generalizing depth inside with
  | nil => simp [untilClosed]
  | cons t ts ih =>
    have hslope := t.kind.neg_one_le_slope
    rw [untilClosed]
    simp only
    by_cases hzero : depth + t.kind.slope = 0
    · rw [if_pos hzero]
      constructor
      · intro h
        cases h
        refine ⟨rfl, by simpa using hzero, fun pre hpre => ?_⟩
        rw [List.prefix_nil.1 hpre, height_nil]
        omega
      · rintro ⟨hts, -, hne⟩
        cases inside with
        | nil =>
          cases hts
          rfl
        | cons u inside =>
          cases hts
          exact absurd (by simpa using hzero) (hne [t] ⟨inside, rfl⟩)
    · rw [if_neg hzero, if_neg (by omega), Option.map_eq_some_iff]
      constructor
      · rintro ⟨⟨inside, closer', after'⟩, h, heq⟩
        cases heq
        obtain ⟨rfl, hclose, hne⟩ := (ih (by omega)).1 h
        refine ⟨rfl, ?_, forall_isPrefix_cons_iff.2 ⟨?_, fun pre hpre => ?_⟩⟩
        · rwa [List.cons_append, height_cons, ← Int.add_assoc]
        · simp only [height_nil]
          omega
        · rw [height_cons, ← Int.add_assoc]
          exact hne pre hpre
      · rintro ⟨hts, hclose, hne⟩
        cases inside with
        | nil =>
          cases hts
          exact absurd (by simpa using hclose) hzero
        | cons u inside =>
          cases hts
          rw [List.cons_append, height_cons, ← Int.add_assoc] at hclose
          simp only [forall_isPrefix_cons_iff, height_cons, ← Int.add_assoc] at hne
          exact ⟨_, (ih (by omega)).2 ⟨rfl, hclose, hne.2⟩, rfl⟩

/-- The run is an opening bracket of the shape, what is inside, and the token at which
the depth first comes back to zero, whatever its shape. -/
def Enclosed (shape : Bracket) (inside run : List Token) : Prop :=
  ∃ opener closer, run = opener :: inside ++ [closer] ∧ opener.kind = .opening shape ∧
    height run = 0 ∧ ∀ pre, pre <+: opener :: inside → pre ≠ [] → height pre ≠ 0

theorem bracketed?_eq_some_iff (shape : Bracket) (span : Text.Span) :
    bracketed? ts = some (inside, after) ↔
      ∃ run, ⟨.opening shape, span⟩ :: ts = run ++ after ∧ Enclosed shape inside run := by
  rw [bracketed?, Option.map_eq_some_iff]
  constructor
  · rintro ⟨⟨i, closer, a⟩, h, heq⟩
    cases heq
    obtain ⟨rfl, hclose, hne⟩ := (untilClosed_eq_some_iff Int.one_pos).1 h
    refine ⟨⟨.opening shape, span⟩ :: inside ++ [closer], by simp, _, closer, rfl, rfl, hclose, ?_⟩
    exact forall_isPrefix_cons_iff.2 ⟨fun h => absurd rfl h, fun pre hpre _ => hne pre hpre⟩
  · rintro ⟨_, hrun, opener, closer, rfl, hopener, hclose, hne⟩
    simp only [List.cons_append, List.append_assoc, List.cons.injEq] at hrun
    obtain ⟨rfl, rfl⟩ := hrun
    refine ⟨(inside, closer, after), (untilClosed_eq_some_iff Int.one_pos).2 ⟨rfl, hclose, ?_⟩, rfl⟩
    exact fun pre hpre => (forall_isPrefix_cons_iff.1 hne).2 pre hpre (List.cons_ne_nil _ _)

theorem enclosed_cons_iff {shape : Bracket} {span : Text.Span} :
    Enclosed shape inside (⟨.opening shape, span⟩ :: ts) ↔ enclosed? ts = some inside := by
  rw [enclosed?_eq_some_iff, bracketed?_eq_some_iff shape span]
  simp

theorem Enclosed.exists_enclosed? {shape : Bracket} {run : List Token}
    (h : Enclosed shape inside run) :
    ∃ span us, run = ⟨.opening shape, span⟩ :: us ∧ enclosed? us = some inside := by
  have h' := h
  obtain ⟨⟨kind, span⟩, closer, rfl, hopener, -⟩ := h
  obtain rfl : kind = .opening shape := hopener
  exact ⟨span, _, rfl, enclosed_cons_iff.1 h'⟩

theorem pos_of_ne_zero (hdepth : 0 < depth)
    (hne : ∀ pre, pre <+: ts → depth + height pre ≠ 0) :
    ∀ pre, pre <+: ts → 0 < depth + height pre := by
  -- the depth falls by one step at most, so it does not pass zero
  induction ts generalizing depth with
  | nil => simp [hdepth]
  | cons t ts ih =>
    have hslope := t.kind.neg_one_le_slope
    simp only [forall_isPrefix_cons_iff, height_nil, height_cons, ← Int.add_assoc] at hne ⊢
    have ht : depth + t.kind.slope ≠ 0 := by simpa using hne.2 [] List.nil_prefix
    exact ⟨by omega, ih (by omega) hne.2⟩

/-- Brackets of any two shapes around a balanced run: the depth is back at zero at the
end, and not before. -/
theorem height_bracket {opener : Token} {shape shape' : Bracket}
    (hopener : opener.kind = .opening shape) (hcloser : closer.kind = .closing shape')
    (hinside : balanced inside = true) :
    height (opener :: inside ++ [closer]) = 0 ∧
      ∀ pre, pre <+: opener :: inside → pre ≠ [] → 0 < height pre := by
  obtain ⟨habove, hzero⟩ := balanced_iff.1 hinside
  have hslope : opener.kind.slope = 1 := by rw [hopener]; rfl
  have hslope' : closer.kind.slope = -1 := by rw [hcloser]; rfl
  refine ⟨by simp [hslope, hslope', hzero], ?_⟩
  refine forall_isPrefix_cons_iff.2 ⟨fun h => absurd rfl h, fun pre hpre _ => ?_⟩
  have := habove pre hpre
  rw [height_cons, hslope]
  omega

theorem balanced_bracket {opener : Token} {shape shape' : Bracket}
    (hopener : opener.kind = .opening shape) (hcloser : closer.kind = .closing shape')
    (hinside : balanced inside = true) : balanced (opener :: inside ++ [closer]) = true := by
  obtain ⟨hzero, hpos⟩ := height_bracket hopener hcloser hinside
  refine balanced_iff.2 ⟨fun pre hpre => ?_, hzero⟩
  by_cases hnil : pre = []
  · exact Int.le_of_eq (by rw [hnil, height_nil])
  · rcases List.prefix_concat_iff.1 hpre with rfl | hpre
    · exact Int.le_of_eq hzero.symm
    · exact Int.le_of_lt (hpos pre hpre hnil)

/-- A run is enclosed if what is inside is balanced, in brackets of any two shapes. -/
theorem enclosed_iff {shape : Bracket} {run : List Token} :
    Enclosed shape inside run ↔ ∃ opener closer shape', run = opener :: inside ++ [closer] ∧
      opener.kind = .opening shape ∧ closer.kind = .closing shape' ∧ balanced inside = true := by
  constructor
  · rintro ⟨opener, closer, rfl, hopener, hclose, hne⟩
    have hslope : opener.kind.slope = 1 := by rw [hopener]; rfl
    have hpos := pos_of_ne_zero Int.one_pos fun pre hpre => by
      rw [← hslope, ← height_cons]
      exact (forall_isPrefix_cons_iff.1 hne).2 pre hpre (List.cons_ne_nil _ _)
    have hinside := hpos inside (List.prefix_refl inside)
    have hcloser := closer.kind.neg_one_le_slope
    rw [List.cons_append, height_cons, height_append, height_cons, height_nil, hslope] at hclose
    have hfall : closer.kind.slope < 0 := by omega
    obtain ⟨shape', hshape'⟩ := Kind.eq_closing_of_slope hfall
    refine ⟨opener, closer, shape', rfl, hopener, hshape', balanced_iff.2 ⟨fun pre hpre => ?_, ?_⟩⟩
    · have := hpos pre hpre
      omega
    · omega
  · rintro ⟨opener, closer, shape', rfl, hopener, hcloser, hinside⟩
    obtain ⟨hzero, hpos⟩ := height_bracket hopener hcloser hinside
    exact ⟨opener, closer, rfl, hopener, hzero, fun pre hpre hne =>
      (Int.ne_of_lt (hpos pre hpre hne)).symm⟩

theorem Enclosed.balanced_inside {shape : Bracket} {run : List Token}
    (h : Enclosed shape inside run) : balanced inside = true := by
  obtain ⟨opener, closer, shape', -, -, -, hinside⟩ := enclosed_iff.1 h
  exact hinside

theorem balanced_of_enclosed? (h : enclosed? ts = some inside) : balanced inside = true := by
  have henclosed : Enclosed .round inside (⟨.opening .round, ⟨0, 0⟩⟩ :: ts) :=
    enclosed_cons_iff.2 h
  exact henclosed.balanced_inside

theorem Enclosed.balanced {shape : Bracket} {run : List Token}
    (h : Enclosed shape inside run) : balanced run = true := by
  obtain ⟨opener, closer, shape', rfl, hopener, hcloser, hinside⟩ := enclosed_iff.1 h
  exact balanced_bracket hopener hcloser hinside

end SnippetConsole
