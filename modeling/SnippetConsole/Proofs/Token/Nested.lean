import SnippetConsole.Proofs.Token.Brackets

/-!
# Nesting by shape

The depth pairs each opening bracket with the closing bracket that brings the depth
back, whatever the two shapes are. Brackets are well nested if, besides, the two shapes
of each pair are the same; a stack of open brackets finds this out.

* `WellNested` — the stack of open brackets is empty in the end.
* `balanced_induction` — a balanced run is built from other tokens and pairs of brackets.
* `wellNested_iff` — a balanced run is well nested if each pair has one shape.
-/

namespace SnippetConsole

/-! ## The stack of open brackets -/

/-- What a kind does to the brackets that are open in front of it, the innermost first. A
closing bracket has to have the shape of the innermost open one. -/
def Kind.onStack : Kind → List Bracket → Option (List Bracket)
  | .opening shape, stack => some (shape :: stack)
  | .closing shape, top :: below => if shape = top then some below else none
  | .closing _, [] => none
  | _, stack => some stack

/-- The brackets that are open behind a run, given those that are open in front of it. -/
def unclosed (stack : List Bracket) (ts : List Token) : Option (List Bracket) :=
  ts.foldlM (fun stack t => t.kind.onStack stack) stack

/-- Every opening bracket is closed by a closing bracket of its shape, correctly nested. -/
def WellNested (ts : List Token) : Prop := unclosed [] ts = some []

instance (ts : List Token) : Decidable (WellNested ts) :=
  inferInstanceAs (Decidable (unclosed [] ts = some []))

variable {stack stack' : List Bracket} {t : Token} {ts us : List Token}

theorem unclosed_cons : unclosed stack (t :: ts) = (t.kind.onStack stack).bind (unclosed · ts) :=
  List.foldlM_cons

theorem unclosed_append : unclosed stack (ts ++ us) = (unclosed stack ts).bind (unclosed · us) :=
  List.foldlM_append

theorem Kind.onStack_of_flat {kind : Kind} (h : kind.slope = 0) (stack : List Bracket) :
    kind.onStack stack = some stack := by
  cases kind with
  | opening | closing => simp [slope] at h
  | _ => rfl

/-! ## Balanced runs -/

theorem balanced_append_iff (hts : balanced ts = true) :
    balanced (ts ++ us) = true ↔ balanced us = true := by
  refine ⟨fun h => ?_, balanced_append hts⟩
  obtain ⟨habove, hzero⟩ := balanced_iff.1 h
  have hheight := (balanced_iff.1 hts).2
  rw [height_append, hheight, Int.zero_add] at hzero
  refine balanced_iff.2 ⟨fun pre hpre => ?_, hzero⟩
  have := habove (ts ++ pre) ((List.prefix_append_right_inj ts).2 hpre)
  rwa [height_append, hheight, Int.zero_add] at this

/-- A depth above zero that ends at zero comes back to it. -/
theorem exists_untilClosed {depth : Int} (hdepth : 0 < depth) (hzero : depth + height ts ≤ 0) :
    ∃ found, untilClosed depth ts = some found := by
  induction ts generalizing depth with
  | nil =>
    rw [height_nil] at hzero
    omega
  | cons t ts ih =>
    have hslope := t.kind.neg_one_le_slope
    rw [height_cons, ← Int.add_assoc] at hzero
    rw [untilClosed]
    simp only
    by_cases ht : depth + t.kind.slope = 0
    · exact ⟨_, if_pos ht⟩
    · obtain ⟨found, hfound⟩ := ih (by omega) hzero
      rw [if_neg ht, if_neg (by omega), hfound]
      exact ⟨_, rfl⟩

/-- A bracket that is closed stays so when a run is put behind it. -/
theorem untilClosed_append_right {depth : Int} {inside after : List Token} {closer : Token}
    (h : untilClosed depth ts = some (inside, closer, after)) (us : List Token) :
    untilClosed depth (ts ++ us) = some (inside, closer, after ++ us) := by
  fun_induction untilClosed depth ts generalizing inside with
  | case1 => cases h
  | case2 =>
    rename_i hzero
    cases h
    rw [List.cons_append, untilClosed]
    exact if_pos hzero
  | case3 => cases h
  | case4 =>
    rename_i hzero hneg ih
    obtain ⟨⟨i, c, a⟩, h', he⟩ := Option.map_eq_some_iff.1 h
    simp only [Prod.mk.injEq] at he
    obtain ⟨rfl, rfl, rfl⟩ := he
    rw [List.cons_append, untilClosed]
    simp only
    rw [if_neg hzero, if_neg hneg, ih h']
    rfl

/-- The first token of a balanced run is no bracket, or it opens one that is closed. -/
theorem balanced_cons_cases (h : balanced (t :: ts) = true) :
    t.kind.slope = 0 ∧ balanced ts = true ∨
      ∃ inside closer after shape shape', ts = inside ++ closer :: after ∧
        t.kind = .opening shape ∧ closer.kind = .closing shape' ∧
        balanced inside = true ∧ balanced after = true := by
  obtain ⟨habove, hzero⟩ := balanced_iff.1 h
  have ht := habove [t] ⟨ts, rfl⟩
  obtain ⟨kind, span⟩ := t
  cases kind with
  | opening shape =>
    obtain ⟨⟨inside, found, after⟩, hfound⟩ := exists_untilClosed Int.one_pos (Int.le_of_eq hzero)
    have hbracketed : bracketed? ts = some (inside, after) := by rw [bracketed?, hfound]; rfl
    obtain ⟨run, hrun, henclosed⟩ := (bracketed?_eq_some_iff shape span).1 hbracketed
    have hafter : balanced after = true := by
      rw [hrun] at h
      exact (balanced_append_iff henclosed.balanced).1 h
    obtain ⟨opener, closer, shape', rfl, -, hcloser, hinside⟩ := enclosed_iff.1 henclosed
    simp only [List.cons_append, List.append_assoc, List.cons.injEq] at hrun
    exact .inr ⟨inside, closer, after, shape, shape', hrun.2, rfl, hcloser, hinside, hafter⟩
  | closing shape => simp [Kind.slope] at ht
  | _ => exact .inl ⟨rfl, by rwa [balanced_cons_of_flat rfl] at h⟩

theorem balanced_pair {opener closer : Token} {inside after : List Token} {shape shape' : Bracket}
    (hopener : opener.kind = .opening shape) (hcloser : closer.kind = .closing shape')
    (hinside : balanced inside = true) (hafter : balanced after = true) :
    balanced (opener :: inside ++ closer :: after) = true := by
  have := balanced_append (balanced_bracket hopener hcloser hinside) hafter
  rwa [List.append_assoc, List.singleton_append] at this

/-- A balanced run is empty, or starts with a token that is no bracket, or with a pair of
brackets around a balanced run. -/
@[elab_as_elim]
theorem balanced_induction {motive : (ts : List Token) → balanced ts = true → Prop}
    (nil : motive [] rfl)
    (flat : ∀ t ts (ht : t.kind.slope = 0) (hts : balanced ts = true), motive ts hts →
      motive (t :: ts) ((balanced_cons_of_flat ht).trans hts))
    (pair : ∀ opener inside closer after shape shape' (hopener : opener.kind = .opening shape)
      (hcloser : closer.kind = .closing shape') (hinside : balanced inside = true)
      (hafter : balanced after = true), motive inside hinside → motive after hafter →
      motive (opener :: inside ++ closer :: after) (balanced_pair hopener hcloser hinside hafter))
    {ts : List Token} (h : balanced ts = true) : motive ts h := by
  induction hlength : ts.length using Nat.strong_induction_on generalizing ts with
  | _ n ih =>
  cases ts with
  | nil => exact nil
  | cons t ts =>
    rcases balanced_cons_cases h with ⟨ht, hts⟩ |
      ⟨inside, closer, after, shape, shape', rfl, ht, hcloser, hinside, hafter⟩
    · exact flat t ts ht hts (ih ts.length (by simp [← hlength]) hts rfl)
    · simp only [List.length_cons, List.length_append] at hlength
      exact pair t inside closer after shape shape' ht hcloser hinside hafter
        (ih inside.length (by omega) hinside rfl) (ih after.length (by omega) hafter rfl)

/-! ## Pairs of brackets -/

/-- Each closing bracket has the shape of the bracket it closes, where the depth says which
one it closes: what stands between the two is balanced. -/
def SameShapes (ts : List Token) : Prop :=
  ∀ before opener inside closer after shape shape',
    ts = before ++ (opener :: inside ++ closer :: after) → opener.kind = .opening shape →
    closer.kind = .closing shape' → balanced inside = true → shape = shape'

theorem SameShapes.isInfix (h : SameShapes ts) (hus : us <:+: ts) : SameShapes us := by
  obtain ⟨front, back, rfl⟩ := hus
  intro before opener inside closer after shape shape' heq
  exact h (front ++ before) opener inside closer (after ++ back) shape shape' (by simp [heq])

section

variable {opener closer : Token} {inside after : List Token} {shape shape' : Bracket}

theorem unclosed_opening (hopener : opener.kind = .opening shape) :
    unclosed stack (opener :: inside ++ us) =
      (unclosed (shape :: stack) inside).bind (unclosed · us) := by
  rw [List.cons_append, unclosed_cons, hopener, Kind.onStack, Option.bind_some, unclosed_append]

theorem unclosed_closing (hcloser : closer.kind = .closing shape') :
    unclosed (shape :: stack) (closer :: after) =
      if shape' = shape then unclosed stack after else none := by
  rw [unclosed_cons, hcloser, Kind.onStack]
  split <;> rfl

/-- Unless a closing bracket has another shape, a balanced run leaves the stack as it was. -/
theorem unclosed_of_balanced (hts : balanced ts = true) (h : unclosed stack ts = some stack') :
    stack' = stack := by
  induction hts using balanced_induction generalizing stack stack' with
  | nil => exact (Option.some.inj h).symm
  | flat t ts ht _ ih =>
    rw [unclosed_cons, Kind.onStack_of_flat ht] at h
    exact ih h
  | pair opener inside closer after shape shape' hopener hcloser _ _ ihinside ihafter =>
    rw [unclosed_opening hopener] at h
    obtain ⟨between, hinside, h⟩ := Option.bind_eq_some_iff.1 h
    obtain rfl := ihinside hinside
    rw [unclosed_closing hcloser] at h
    split at h
    · exact ihafter h
    · cases h

theorem unclosed_of_sameShapes (hts : balanced ts = true) (h : SameShapes ts)
    (stack : List Bracket) : unclosed stack ts = some stack := by
  induction hts using balanced_induction generalizing stack with
  | nil => rfl
  | flat t ts ht _ ih =>
    rw [unclosed_cons, Kind.onStack_of_flat ht]
    exact ih (h.isInfix (List.suffix_cons t ts).isInfix) stack
  | pair opener inside closer after shape shape' hopener hcloser hinside _ ihinside ihafter =>
    obtain rfl : shape = shape' :=
      h [] opener inside closer after shape shape' rfl hopener hcloser hinside
    have hinfix : inside <:+: opener :: inside ++ closer :: after :=
      ⟨[opener], closer :: after, by simp⟩
    have hsuffix : after <:+: opener :: inside ++ closer :: after :=
      ⟨opener :: inside ++ [closer], [], by simp⟩
    rw [unclosed_opening hopener, ihinside (h.isInfix hinfix), Option.bind_some,
      unclosed_closing hcloser, if_pos rfl, ihafter (h.isInfix hsuffix)]

end

theorem wellNested_iff (hts : balanced ts = true) : WellNested ts ↔ SameShapes ts := by
  constructor
  · intro h before opener inside closer after shape shape' heq hopener hcloser hinside
    rw [WellNested, heq, unclosed_append, Option.bind_eq_some_iff] at h
    obtain ⟨stack, -, h⟩ := h
    rw [unclosed_opening hopener, Option.bind_eq_some_iff] at h
    obtain ⟨between, hbetween, h⟩ := h
    obtain rfl := unclosed_of_balanced hinside hbetween
    rw [unclosed_closing hcloser] at h
    split at h
    · next hshape => exact hshape.symm
    · cases h
  · exact fun h => unclosed_of_sameShapes hts h []

end SnippetConsole
