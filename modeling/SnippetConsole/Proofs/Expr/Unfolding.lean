import SnippetConsole.Proofs.Expr.Rules

/-!
# A name unfolded to a run in brackets

Where a run in round brackets is put in the place of a name, other brackets close where
they did, and a run that is balanced is divided where it was. A reference is read as
before, but for what stands for its index: a name that is unfolded starts none.

* `unfolded` — the run in brackets for the name, wherever this stands.
* `bracketed?_unfolded`, `splitAtTop_unfolded` — brackets and parts.
* `Reference.exists_of_read?_unfolded` — references.
-/

namespace SnippetConsole

/-- The run in round brackets. -/
def inBrackets (inside : List Token) : List Token :=
  ⟨.opening .round, ⟨0, 0⟩⟩ :: (inside ++ [⟨.closing .round, ⟨0, 0⟩⟩])

/-- The run with each token that is the name unfolded to the run in brackets. -/
def unfolded (name : String) (inside ts : List Token) : List Token :=
  ts.flatMap fun t => if t.kind = .word name then inBrackets inside else [t]

section

variable {name : String} {inside : List Token} {t : Token} {ts us : List Token}

@[simp] theorem unfolded_nil : unfolded name inside [] = [] := rfl

theorem unfolded_append :
    unfolded name inside (ts ++ us) = unfolded name inside ts ++ unfolded name inside us :=
  List.flatMap_append

theorem unfolded_name (ht : t.kind = .word name) :
    unfolded name inside (t :: ts) = inBrackets inside ++ unfolded name inside ts := by
  rw [unfolded, List.flatMap_cons, if_pos ht, unfolded]

theorem unfolded_cons (ht : t.kind ≠ .word name) :
    unfolded name inside (t :: ts) = t :: unfolded name inside ts := by
  rw [unfolded, List.flatMap_cons, if_neg ht, unfolded, List.singleton_append]

theorem unfolded_eq_self (h : ∀ t ∈ ts, t.kind ≠ .word name) : unfolded name inside ts = ts := by
  induction ts with
  | nil => rfl
  | cons t ts ih =>
    obtain ⟨ht, hts⟩ := List.forall_mem_cons.1 h
    rw [unfolded_cons ht, ih hts]

theorem unfolded_eq_nil (h : unfolded name inside ts = []) : ts = [] := by
  cases ts with
  | nil => rfl
  | cons t ts =>
    by_cases ht : t.kind = .word name
    · rw [unfolded_name ht] at h
      cases h
    · rw [unfolded_cons ht] at h
      cases h

/-- A run that is unfolded to a single token is this token. -/
theorem unfolded_eq_singleton (h : unfolded name inside ts = [t]) : ts = [t] := by
  cases ts with
  | nil => cases h
  | cons u ts =>
    by_cases hu : u.kind = .word name
    · rw [unfolded_name hu, inBrackets] at h
      simp at h
    · rw [unfolded_cons hu] at h
      obtain ⟨rfl, hts⟩ := List.cons.inj h
      rw [unfolded_eq_nil hts]

/-! ## Balance -/

theorem enclosed_inBrackets (hinside : balanced inside = true) :
    Enclosed .round inside (inBrackets inside) :=
  enclosed_iff.2 ⟨_, _, .round, rfl, rfl, rfl, hinside⟩

theorem height_unfolded (hinside : balanced inside = true) (ts : List Token) :
    height (unfolded name inside ts) = height ts := by
  induction ts with
  | nil => rfl
  | cons t ts ih =>
    by_cases ht : t.kind = .word name
    · have hrun := height_of_balanced (enclosed_inBrackets hinside).balanced
      rw [unfolded_name ht, height_append, hrun, ih, height_cons, ht]
      rfl
    · rw [unfolded_cons ht, height_cons, height_cons, ih]

theorem balanced_of_unfolded (hinside : balanced inside = true)
    (h : balanced (unfolded name inside ts) = true) : balanced ts = true := by
  obtain ⟨habove, hzero⟩ := balanced_iff.1 h
  rw [height_unfolded hinside] at hzero
  refine balanced_iff.2 ⟨?_, hzero⟩
  rintro pre ⟨post, rfl⟩
  rw [unfolded_append] at habove
  rw [← @height_unfolded name inside hinside pre]
  exact habove _ (List.prefix_append _ _)

/-! ## Brackets that close -/

/-- A run that stays above depth zero is passed over. -/
theorem untilClosed_append_left {depth : Int} (h : ∀ pre, pre <+: ts → 0 < depth + height pre) :
    untilClosed depth (ts ++ us) = (untilClosed (depth + height ts) us).map
      fun (inside, closer, after) => (ts ++ inside, closer, after) := by
  induction ts generalizing depth with
  | nil =>
    rw [height_nil, Int.add_zero]
    exact Option.map_id'.symm
  | cons t ts ih =>
    obtain ⟨-, h⟩ := forall_isPrefix_cons_iff.1 h
    simp only [height_cons, ← Int.add_assoc] at h
    have ht := h [] List.nil_prefix
    rw [height_nil, Int.add_zero] at ht
    rw [List.cons_append, untilClosed]
    simp only
    rw [if_neg (by omega), if_neg (by omega), ih h, Option.map_map, height_cons, Int.add_assoc]
    rfl

theorem untilClosed_inBrackets (hinside : balanced inside = true) {depth : Int}
    (hdepth : 0 < depth) :
    untilClosed depth (inBrackets inside ++ us) = (untilClosed depth us).map
      fun (inner, closer, after) => (inBrackets inside ++ inner, closer, after) := by
  obtain ⟨habove, hzero⟩ := balanced_iff.1 (enclosed_inBrackets hinside).balanced
  have hpos : ∀ pre, pre <+: inBrackets inside → 0 < depth + height pre := by
    intro pre hpre
    have := habove pre hpre
    omega
  rw [untilClosed_append_left hpos, hzero, Int.add_zero]

theorem untilClosed_unfolded (hinside : balanced inside = true) {depth : Int}
    (hdepth : 0 < depth) :
    untilClosed depth (unfolded name inside ts) = (untilClosed depth ts).map
      fun (inner, closer, after) =>
        (unfolded name inside inner, closer, unfolded name inside after) := by
  induction ts generalizing depth with
  | nil => rfl
  | cons t ts ih =>
    by_cases ht : t.kind = .word name
    · have hslope : t.kind.slope = 0 := by rw [ht]; rfl
      rw [unfolded_name ht, untilClosed_inBrackets hinside hdepth, ih hdepth, untilClosed]
      simp only [hslope, Int.add_zero]
      rw [if_neg (by omega), if_neg (by omega), Option.map_map, Option.map_map]
      refine congrArg (Option.map · _) (funext ?_)
      rintro ⟨inner, closer, after⟩
      simp only [Function.comp_apply, unfolded_name ht]
    · rw [unfolded_cons ht, untilClosed, untilClosed]
      simp only
      split
      · rfl
      · split
        · rfl
        · rw [ih (by omega), Option.map_map, Option.map_map]
          refine congrArg (Option.map · _) (funext ?_)
          rintro ⟨inner, closer, after⟩
          simp only [Function.comp_apply, unfolded_cons ht]

theorem bracketed?_unfolded (hinside : balanced inside = true) :
    bracketed? (unfolded name inside ts) = (bracketed? ts).map
      fun (inner, after) => (unfolded name inside inner, unfolded name inside after) := by
  rw [bracketed?, untilClosed_unfolded hinside Int.one_pos, bracketed?, Option.map_map,
    Option.map_map]
  rfl

/-! ## Parts -/

/-- As long as the depth does not fall below zero, no separator in the brackets stands
at depth zero. -/
theorem splitFrom_unfolded (hinside : balanced inside = true) {separator : Kind}
    (hflat : separator.slope = 0) (hname : separator ≠ .word name) {depth : Int}
    (h : ∀ pre, pre <+: ts → 0 ≤ depth + height pre) :
    splitFrom separator depth (unfolded name inside ts) =
      (splitFrom separator depth ts).map (unfolded name inside) := by
  induction ts generalizing depth with
  | nil => rfl
  | cons t ts ih =>
    obtain ⟨hdepth, h⟩ := forall_isPrefix_cons_iff.1 h
    rw [height_nil, Int.add_zero] at hdepth
    simp only [height_cons, ← Int.add_assoc] at h
    have hmodify (run : List Token) (parts : List (List Token))
        (hrun : ∀ us, unfolded name inside (t :: us) = run ++ unfolded name inside us) :
        (parts.map (unfolded name inside)).modifyHead (run ++ ·) =
          (parts.modifyHead (t :: ·)).map (unfolded name inside) := by
      cases parts with
      | nil => rfl
      | cons part parts => simp [hrun]
    by_cases ht : t.kind = .word name
    · have hslope : t.kind.slope = 0 := by rw [ht]; rfl
      have hsolid := (enclosed_inBrackets hinside).solid hflat hdepth
      have hrun := height_of_balanced (enclosed_inBrackets hinside).balanced
      have hne : ¬(depth = 0 ∧ t.kind = separator) := fun hcut => hname (hcut.2.symm.trans ht)
      rw [hslope, Int.add_zero] at h
      rw [unfolded_name ht, splitFrom_append hsolid, hrun, Int.add_zero, ih h, splitFrom,
        if_neg hne, hslope, Int.add_zero]
      exact hmodify _ _ fun us => unfolded_name ht
    · rw [unfolded_cons ht, splitFrom, splitFrom]
      split
      · next hcut =>
        rw [hcut.2, hflat, Int.add_zero] at h
        rw [ih h]
        rfl
      · rw [ih h]
        exact hmodify [t] _ fun us => unfolded_cons ht

theorem splitAtTop_unfolded (hinside : balanced inside = true) (hts : balanced ts = true)
    {separator : Kind} (hflat : separator.slope = 0) (hname : separator ≠ .word name) :
    splitAtTop separator (unfolded name inside ts) =
      (splitAtTop separator ts).map (unfolded name inside) := by
  refine splitFrom_unfolded hinside hflat hname fun pre hpre => ?_
  rw [Int.zero_add]
  exact (balanced_iff.1 hts).1 pre hpre

/-! ## References -/

/-- The reference with the name unfolded in its index. -/
def Reference.unfolded (name : String) (inside : List Token) : Reference → Reference
  | .slot array index => .slot array (SnippetConsole.unfolded name inside index)
  | .binding other => .binding other
  | .member object field => .member object field

theorem quiet_unfolded_iff : Quiet (SnippetConsole.unfolded name inside ts) ↔ Quiet ts := by
  cases ts with
  | nil => exact Iff.rfl
  | cons t ts =>
    by_cases ht : t.kind = .word name
    · rw [unfolded_name ht]
      exact iff_of_true (quiet_cons (by simp) (by simp) _)
        (quiet_cons (by simp [ht]) (by simp [ht]) ts)
    · rw [unfolded_cons ht]
      exact Iff.rfl

/-- What is read as a reference with the name unfolded is one without, up to its index,
and it does not start with the name. -/
theorem Reference.exists_of_read?_unfolded (hinside : balanced inside = true) {r : Reference}
    {rest : List Token}
    (h : read? (SnippetConsole.unfolded name inside ts) = some (r, rest)) :
    ∃ r' rest', read? ts = some (r', rest') ∧ r = r'.unfolded name inside ∧
      rest = SnippetConsole.unfolded name inside rest' ∧ r' ≠ .binding name := by
  rcases ts with _ | ⟨⟨kind, span⟩, ts⟩
  · cases h
  by_cases hkind : kind = .word name
  · rw [unfolded_name hkind] at h
    cases h
  rw [unfolded_cons hkind] at h
  cases kind with
  | word other =>
    by_cases hquiet : Quiet ts
    · rw [read?_binding (quiet_unfolded_iff.2 hquiet)] at h
      obtain ⟨rfl, rfl⟩ := Prod.mk.inj (Option.some.inj h)
      refine ⟨.binding other, ts, read?_binding hquiet, rfl, rfl, ?_⟩
      rintro ⟨⟩
      exact hkind rfl
    -- the name goes on
    rcases ts with _ | ⟨⟨kind', span'⟩, ts⟩
    · exact absurd quiet_nil hquiet
    cases kind' with
    | dot =>
      rw [unfolded_cons (by simp)] at h
      rcases ts with _ | ⟨⟨kind'', span''⟩, ts⟩
      · cases h
      by_cases hfield : kind'' = .word name
      · rw [unfolded_name hfield] at h
        cases h
      rw [unfolded_cons hfield] at h
      cases kind'' with
      | word field =>
        obtain ⟨rfl, rfl⟩ := Prod.mk.inj (Option.some.inj h)
        exact ⟨.member other field, ts, rfl, rfl, rfl, by simp⟩
      | _ => cases h
    | opening shape =>
      cases shape with
      | square =>
        rw [unfolded_cons (by simp)] at h
        simp only [read?, bracketed?_unfolded hinside, Option.map_map] at h
        obtain ⟨⟨index, after⟩, hclosed, he⟩ := Option.map_eq_some_iff.1 h
        obtain ⟨rfl, rfl⟩ := Prod.mk.inj he
        exact ⟨.slot other index, after, by rw [read?, hclosed]; rfl, rfl, rfl, by simp⟩
      | _ => exact absurd (quiet_cons (by simp) (by simp) _) hquiet
    | _ => exact absurd (quiet_cons (by simp) (by simp) _) hquiet
  | _ => cases h

theorem Reference.exists_of_ofRun?_unfolded (hinside : balanced inside = true) {r : Reference}
    (h : ofRun? (SnippetConsole.unfolded name inside ts) = some r) :
    ∃ r', ofRun? ts = some r' ∧ r = r'.unfolded name inside ∧ r' ≠ .binding name := by
  obtain ⟨r', rest, hread, hr, hrest, hname⟩ :=
    exists_of_read?_unfolded hinside (read?_of_ofRun? h)
  obtain rfl := unfolded_eq_nil hrest.symm
  exact ⟨r', by rw [ofRun?, hread], hr, hname⟩

end

end SnippetConsole
