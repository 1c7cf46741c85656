import SnippetConsole.Proofs.Token.Nested

/-!
# Pairs of brackets by position

The position at which a bracket closes, told by counting: it is the first at which the
run from the opening bracket on holds as many closing brackets as opening ones. The depth
in front of each position, its level, turns this into a comparison of numbers, from which
it follows how two pairs lie to each other.

* `height_eq_sub` — the depth is a difference of two numbers of brackets.
* `exists_enclosed_of_closer?` — from its opening bracket to its closing one, a pair is an
  enclosed run.
* `levels_of_closer?` — within a pair the level is higher than in front of it.
* `exists_closer?` — a bracket is closed where the level comes back.
* `closer?_pairs` — which position closes a bracket, and that pairs are nested or apart.
-/

namespace SnippetConsole

variable {ts : List Token} {i j o c : Nat}

/-! ## Counting brackets -/

def Kind.isOpening : Kind → Bool
  | .opening _ => true
  | _ => false

def Kind.isClosing : Kind → Bool
  | .closing _ => true
  | _ => false

/-- The number of opening brackets of a run. -/
def openings (ts : List Token) : Nat := ts.countP (·.kind.isOpening)

/-- The number of closing brackets of a run. -/
def closings (ts : List Token) : Nat := ts.countP (·.kind.isClosing)

theorem openings_cons (t : Token) (ts : List Token) :
    openings (t :: ts) = openings ts + if t.kind.isOpening then 1 else 0 := List.countP_cons

theorem closings_cons (t : Token) (ts : List Token) :
    closings (t :: ts) = closings ts + if t.kind.isClosing then 1 else 0 := List.countP_cons

theorem height_eq_sub (ts : List Token) : height ts = openings ts - closings ts := by
  induction ts with
  | nil => rfl
  | cons t ts ih =>
    have hslope : t.kind.slope = ((if t.kind.isOpening then 1 else 0 : Nat) : Int) -
        (if t.kind.isClosing then 1 else 0 : Nat) := by
      cases t.kind <;> rfl
    rw [height_cons, openings_cons, closings_cons, ih, hslope]
    omega

theorem height_eq_zero_iff : height ts = 0 ↔ openings ts = closings ts := by
  rw [height_eq_sub]
  omega

/-! ## Levels -/

/-- The depth in front of position `i` of a run. -/
def levelAt (ts : List Token) (i : Nat) : Int := height (ts.take i)

/-- The tokens from position `start` up to, but not including, position `stop`. -/
def stretch (ts : List Token) (start stop : Nat) : List Token := (ts.drop start).take (stop - start)

theorem height_stretch (h : i ≤ j) : height (stretch ts i j) = levelAt ts j - levelAt ts i := by
  have htake : ts.take j = ts.take i ++ stretch ts i j := by
    rw [stretch, ← List.take_add, Nat.add_sub_cancel' h]
  rw [levelAt, levelAt, htake, height_append]
  omega

theorem stretch_append (before run after : List Token) :
    stretch (before ++ run ++ after) before.length (before.length + run.length) = run := by
  rw [stretch, List.append_assoc, List.drop_left, Nat.add_sub_cancel_left, List.take_left]

theorem levelAt_succ (h : i < ts.length) :
    levelAt ts (i + 1) = levelAt ts i + ts[i].kind.slope := by
  rw [levelAt, List.take_succ_eq_append_getElem h, height_append, levelAt, height_cons, height_nil,
    Int.add_zero]

/-- The token at the position is an opening bracket. -/
def OpensAt (ts : List Token) (o : Nat) : Prop :=
  ∃ shape span, ts[o]? = some ⟨.opening shape, span⟩

theorem OpensAt.exists_append (h : OpensAt ts o) :
    ∃ before shape span rest, ts = before ++ ⟨.opening shape, span⟩ :: rest ∧
      before.length = o := by
  obtain ⟨shape, span, hget⟩ := h
  obtain ⟨hlt, hget⟩ := List.getElem?_eq_some_iff.1 hget
  refine ⟨ts.take o, shape, span, ts.drop (o + 1), ?_, List.length_take_of_le hlt.le⟩
  rw [← hget, List.getElem_cons_drop, List.take_append_drop]

theorem OpensAt.lt_length (h : OpensAt ts o) : o < ts.length := by
  obtain ⟨shape, span, hget⟩ := h
  exact (List.getElem?_eq_some_iff.1 hget).1

theorem OpensAt.levelAt_succ (h : OpensAt ts o) : levelAt ts (o + 1) = levelAt ts o + 1 := by
  obtain ⟨shape, span, hget⟩ := h
  obtain ⟨hlt, hget⟩ := List.getElem?_eq_some_iff.1 hget
  rw [SnippetConsole.levelAt_succ hlt, hget]
  rfl

/-! ## A bracket and what closes it -/

/-- The closing bracket is found by the reader of bracketed runs. -/
theorem closer?_append (before : List Token) (shape : Bracket) (span : Text.Span)
    (rest : List Token) :
    closer? (before ++ ⟨.opening shape, span⟩ :: rest) before.length =
      (bracketed? rest).map fun p => before.length + (p.1.length + 1) := by
  have hopen : untilClosed 0 (⟨.opening shape, span⟩ :: rest) =
      (untilClosed 1 rest).map fun p => (⟨.opening shape, span⟩ :: p.1, p.2.1, p.2.2) := rfl
  rw [closer?, List.drop_left, hopen, bracketed?, Option.map_map, Option.map_map]
  rfl

/-- From its opening bracket to its closing one, a pair is an enclosed run. -/
theorem exists_enclosed_of_closer? (hopen : OpensAt ts o) (h : closer? ts o = some c) :
    ∃ before run after shape inside, ts = before ++ run ++ after ∧ before.length = o ∧
      Enclosed shape inside run ∧ c + 1 = o + run.length := by
  obtain ⟨before, shape, span, rest, rfl, rfl⟩ := hopen.exists_append
  rw [closer?_append, Option.map_eq_some_iff] at h
  obtain ⟨⟨inside, after⟩, hbracketed, rfl⟩ := h
  obtain ⟨run, hrun, henclosed⟩ := (bracketed?_eq_some_iff shape span).1 hbracketed
  refine ⟨before, run, after, shape, inside, by rw [hrun, List.append_assoc], rfl, henclosed, ?_⟩
  obtain ⟨opener, closer, rfl, -⟩ := henclosed
  simp only [List.length_append, List.length_cons, List.length_nil]
  omega

/-- The run from a bracket to the one that closes it is balanced, and so is what is
between them. -/
theorem balanced_of_closer? (hopen : OpensAt ts o) (h : closer? ts o = some c) :
    balanced (stretch ts (o + 1) c) = true ∧ balanced (stretch ts o (c + 1)) = true := by
  obtain ⟨before, run, after, shape, inside, rfl, rfl, henclosed, hc⟩ :=
    exists_enclosed_of_closer? hopen h
  refine ⟨?_, by rw [hc, stretch_append]; exact henclosed.balanced⟩
  have hinside := henclosed.balanced_inside
  obtain ⟨opener, closer, rfl, -⟩ := henclosed
  have hsplit : before ++ (opener :: inside ++ [closer]) ++ after =
      (before ++ [opener]) ++ inside ++ closer :: after := by simp
  have hstart : before.length + 1 = (before ++ [opener]).length := by simp
  have hstop : c = (before ++ [opener]).length + inside.length := by
    simp only [List.length_append, List.length_cons, List.length_nil] at hc ⊢
    omega
  rwa [hsplit, hstart, hstop, stretch_append]

/-- Within a pair the level is higher than in front of it, and behind the pair it is the
same again. -/
theorem levels_of_closer? (hopen : OpensAt ts o) (h : closer? ts o = some c) :
    o < c ∧ c < ts.length ∧ levelAt ts (c + 1) = levelAt ts o ∧
      ∀ i, o < i → i ≤ c → levelAt ts o < levelAt ts i := by
  obtain ⟨before, run, after, shape, inside, rfl, rfl, henclosed, hc⟩ :=
    exists_enclosed_of_closer? hopen h
  obtain ⟨opener, closer, shape', rfl, hopener, hcloser, hinside⟩ := enclosed_iff.1 henclosed
  obtain ⟨hzero, hpos⟩ := height_bracket hopener hcloser hinside
  have hlength : (opener :: inside ++ [closer]).length = inside.length + 2 := by simp
  have hlevel : ∀ k,
      levelAt (before ++ (opener :: inside ++ [closer]) ++ after) (before.length + k) =
        height before + height ((opener :: inside ++ [closer] ++ after).take k) := by
    intro k
    rw [levelAt, List.append_assoc, List.take_length_add_append, height_append]
  have hfront := hlevel 0
  rw [List.take_zero, height_nil, Int.add_zero, Nat.add_zero] at hfront
  refine ⟨by omega, ?_, ?_, ?_⟩
  · simp only [List.length_append, hlength]
    omega
  · rw [hfront, hc, hlevel, List.take_left, hzero, Int.add_zero]
  · intro i hi hic
    obtain ⟨k, rfl⟩ := Nat.exists_eq_add_of_lt hi
    have htake : (opener :: inside ++ [closer] ++ after).take (k + 1) =
        opener :: inside.take k := by
      rw [List.append_assoc, List.cons_append, List.take_succ_cons,
        List.take_append_of_le_length (by omega)]
    have hprefix : opener :: inside.take k <+: opener :: inside :=
      List.cons_prefix_cons.2 ⟨rfl, List.take_prefix k inside⟩
    have := hpos _ hprefix (List.cons_ne_nil _ _)
    rw [hfront, Nat.add_assoc, hlevel, htake]
    omega

/-- A bracket is closed if the level comes back to what it is in front of it. -/
theorem exists_closer? (hopen : OpensAt ts o) (hj : o < j) (h : levelAt ts j ≤ levelAt ts o) :
    ∃ c, closer? ts o = some c := by
  have hfall : 1 + height (stretch ts (o + 1) j) ≤ 0 := by
    rw [height_stretch hj, hopen.levelAt_succ]
    omega
  obtain ⟨before, shape, span, rest, rfl, rfl⟩ := hopen.exists_append
  have hstart : (before ++ ⟨.opening shape, span⟩ :: rest).drop (before.length + 1) = rest := by
    rw [← List.drop_drop, List.drop_left, List.drop_one, List.tail_cons]
  rw [stretch, hstart] at hfall
  obtain ⟨⟨inside, closer, after⟩, hfound⟩ := exists_untilClosed Int.one_pos hfall
  have hclosed := untilClosed_append_right hfound (rest.drop (j - (before.length + 1)))
  rw [List.take_append_drop] at hclosed
  rw [closer?_append, bracketed?, hclosed]
  exact ⟨_, rfl⟩

/-! ## Where a bracket closes -/

/-- The first position behind `o` at which the run from `o` on holds as many closing
brackets as opening ones. -/
structure ClosesFirst (ts : List Token) (o c : Nat) : Prop where
  lt : o < c
  lt_length : c < ts.length
  even : openings (stretch ts o (c + 1)) = closings (stretch ts o (c + 1))
  first : ∀ i, o < i → i < c → openings (stretch ts o (i + 1)) ≠ closings (stretch ts o (i + 1))

theorem even_iff (h : o < i) :
    openings (stretch ts o (i + 1)) = closings (stretch ts o (i + 1)) ↔
      levelAt ts (i + 1) = levelAt ts o := by
  rw [← height_eq_zero_iff, height_stretch (by omega)]
  omega

theorem closer?_eq_some_iff (hopen : OpensAt ts o) :
    closer? ts o = some c ↔ ClosesFirst ts o c := by
  constructor
  · intro h
    obtain ⟨hlt, hlength, hback, habove⟩ := levels_of_closer? hopen h
    refine ⟨hlt, hlength, (even_iff hlt).2 hback, fun i hi hic => ?_⟩
    rw [Ne, even_iff hi]
    exact (Int.ne_of_lt (habove (i + 1) (by omega) hic)).symm
  · intro h
    have hback := (even_iff h.lt).1 h.even
    obtain ⟨c', hc'⟩ := exists_closer? hopen (Nat.lt_succ_of_lt h.lt) (Int.le_of_eq hback)
    obtain ⟨hlt, -, hback', habove⟩ := levels_of_closer? hopen hc'
    -- no two positions are both the first
    rcases Nat.lt_trichotomy c c' with hcc | rfl | hcc
    · exact absurd hback.symm (Int.ne_of_lt (habove (c + 1) (Nat.lt_succ_of_lt h.lt) hcc))
    · exact hc'
    · exact absurd ((even_iff hlt).2 hback') (h.first c' hlt hcc)

/-! ## Two pairs -/

section

variable {o₁ o₂ c₁ c₂ : Nat}

/-- A closing bracket closes nothing but a bracket in front of it. -/
theorem ne_of_closer? (hopen₁ : OpensAt ts o₁) (hopen₂ : OpensAt ts o₂)
    (h : closer? ts o₁ = some c₁) : o₂ ≠ c₁ := by
  rintro rfl
  obtain ⟨hlt, -, hback, habove⟩ := levels_of_closer? hopen₁ h
  have hlast := habove o₂ hlt le_rfl
  have hup := hopen₂.levelAt_succ
  omega

theorem apart_or_nested (hlt : o₁ < o₂) (hopen₁ : OpensAt ts o₁) (hopen₂ : OpensAt ts o₂)
    (h₁ : closer? ts o₁ = some c₁) (h₂ : closer? ts o₂ = some c₂) : c₁ < o₂ ∨ c₂ < c₁ := by
  obtain ⟨-, -, hback₁, habove₁⟩ := levels_of_closer? hopen₁ h₁
  obtain ⟨-, -, hback₂, habove₂⟩ := levels_of_closer? hopen₂ h₂
  have hne := ne_of_closer? hopen₁ hopen₂ h₁
  by_contra hcross
  obtain ⟨hinside, hcross⟩ := not_or.1 hcross
  -- the second pair would still be open behind the first, where the level is too low for it
  have hlow := habove₁ o₂ hlt (by omega)
  rcases Nat.lt_or_eq_of_le (Nat.le_of_not_lt hcross) with hcc | rfl
  · have hhigh := habove₂ (c₁ + 1) (by omega) hcc
    omega
  · omega

theorem exists_closer?_inside (hlt : o₁ < o₂) (hopen₁ : OpensAt ts o₁) (hopen₂ : OpensAt ts o₂)
    (h : closer? ts o₁ = some c₁) (hinside : o₂ < c₁) : ∃ c₂, closer? ts o₂ = some c₂ := by
  obtain ⟨-, -, hback, habove⟩ := levels_of_closer? hopen₁ h
  have hlow := habove o₂ hlt hinside.le
  rw [← hback] at hlow
  exact exists_closer? hopen₂ (Nat.lt_succ_of_lt hinside) (Int.le_of_lt hlow)

end

theorem exists_closer?_of_balanced (hopen : OpensAt ts o) (h : balanced ts = true) :
    ∃ c, closer? ts o = some c := by
  obtain ⟨habove, hzero⟩ := balanced_iff.1 h
  have hfront : 0 ≤ levelAt ts o := habove _ (List.take_prefix o ts)
  have hend : levelAt ts ts.length = 0 := by rw [levelAt, List.take_length, hzero]
  exact exists_closer? hopen hopen.lt_length (by omega)

/-- How the brackets of a run are paired: an opening bracket is closed by the first position
at which the brackets from it on are even, and what it encloses is balanced, with its
brackets and without them. In a balanced run each opening bracket is closed. Two pairs lie
one behind the other or one within the other, and what is opened within a pair is closed
there. -/
structure Paired (ts : List Token) : Prop where
  closes_iff : ∀ o c, OpensAt ts o → (closer? ts o = some c ↔ ClosesFirst ts o c)
  enclosed : ∀ o c, OpensAt ts o → closer? ts o = some c →
    balanced (stretch ts (o + 1) c) = true ∧ balanced (stretch ts o (c + 1)) = true
  closed : balanced ts = true → ∀ o, OpensAt ts o → ∃ c, closer? ts o = some c
  apart_or_nested : ∀ o₁ o₂ c₁ c₂, o₁ < o₂ → OpensAt ts o₁ → OpensAt ts o₂ →
    closer? ts o₁ = some c₁ → closer? ts o₂ = some c₂ → c₁ < o₂ ∨ c₂ < c₁
  inside : ∀ o₁ o₂ c₁, o₁ < o₂ → OpensAt ts o₁ → OpensAt ts o₂ →
    closer? ts o₁ = some c₁ → o₂ < c₁ → ∃ c₂, closer? ts o₂ = some c₂

/-- In every run, balanced or not, the brackets that are closed are paired. -/
theorem closer?_pairs (ts : List Token) : Paired ts where
  closes_iff _ _ hopen := closer?_eq_some_iff hopen
  enclosed _ _ hopen h := balanced_of_closer? hopen h
  closed hbalanced _ hopen := exists_closer?_of_balanced hopen hbalanced
  apart_or_nested _ _ _ _ := apart_or_nested
  inside _ _ _ := exists_closer?_inside

/-- Two pairs of unlike shapes, one within the other, behind a bracket that closes nothing;
without that bracket the run is balanced. -/
theorem closer?_pairs_unlike :
    let inner : List Token := [⟨.opening .square, ⟨2, 3⟩⟩, ⟨.closing .round, ⟨3, 4⟩⟩]
    let outer : List Token :=
      ⟨.opening .round, ⟨1, 2⟩⟩ :: inner ++ [⟨.closing .curly, ⟨4, 5⟩⟩]
    let ts : List Token := ⟨.closing .round, ⟨0, 1⟩⟩ :: outer
    ClosesFirst ts 1 4 ∧ balanced (stretch ts 2 4) = true ∧ (4 < 2 ∨ 3 < 4) ∧
      (∃ c, closer? ts 2 = some c) ∧ ∃ c, closer? outer 0 = some c := by
  intro inner outer ts
  have hopen₁ : OpensAt ts 1 := ⟨.round, ⟨1, 2⟩, rfl⟩
  have hopen₂ : OpensAt ts 2 := ⟨.square, ⟨2, 3⟩, rfl⟩
  have hopen : OpensAt outer 0 := ⟨.round, ⟨1, 2⟩, rfl⟩
  have h₁ : closer? ts 1 = some 4 := by decide
  have h₂ : closer? ts 2 = some 3 := by decide
  have hpaired := closer?_pairs ts
  exact ⟨(hpaired.closes_iff 1 4 hopen₁).1 h₁, (hpaired.enclosed 1 4 hopen₁ h₁).1,
    hpaired.apart_or_nested 1 2 4 3 (by decide) hopen₁ hopen₂ h₁ h₂,
    hpaired.inside 1 2 4 (by decide) hopen₁ hopen₂ h₁ (by decide),
    (closer?_pairs outer).closed (by decide) 0 hopen⟩

end SnippetConsole
