import SnippetConsole.Proofs.Expr.Direct
import SnippetConsole.Proofs.Statement.Grammar

/-!
# The rule that applies

The rules are tried one after the other, but at most one of them can give a run its
value. A literal and an interpolated string are single tokens, a reference is not
arithmetic, and none of these has a plus sign outside brackets, so that what is joined
has failed as arithmetic only.

* `Applies` — a rule, from the step on that resolving the run costs.
* `result_rules_eq_some_iff` — the rules find a value exactly if one of them applies.
* `result_rules_of_exhausted` — without a step left they find none.
-/

namespace SnippetConsole

/-- After a failure the other attempt goes on with its steps. -/
theorem Attempt.result_orElse_of_none {α : Type} {a b : Attempt α} {steps failed : Nat}
    (h : a.result steps = (none, failed)) : (a <|> b).result steps = b.result failed := by
  rw [result_orElse, h]

variable {store : Store} {fill : String → Attempt String} {near far : Resolver}
  {ts : List Token} {steps steps' : Nat} {v : Value}

/-- A rule that gives the run its value, from some steps to others. -/
inductive Applies (store : Store) (fill : String → Attempt String) (near far : Resolver)
    (ts : List Token) (steps : Nat) : Value → Nat → Prop
  | literal {v : Value} : literalValue? ts = some v → Applies store fill near far ts steps v steps
  | interpolated {raw text : String} {span : Text.Span} {steps' : Nat} :
      ts = [⟨.quoted .interpolated raw, span⟩] → (fill raw).result steps = (some text, steps') →
      Applies store fill near far ts steps (.text text) steps'
  | reference {r : Reference} {v : Value} {steps' : Nat} : Reference.ofRun? ts = some r →
      (r.value store near).result steps = (some v, steps') →
      Applies store fill near far ts steps v steps'
  | arithmetic {v : Value} {steps' : Nat} :
      (arithmeticValue store far ts).result steps = (some v, steps') →
      Applies store fill near far ts steps v steps'
  | joined {failed : Nat} {v : Value} {steps' : Nat} :
      (arithmeticValue store far ts).result steps = (none, failed) →
      (joinedValue near ts).result failed = (some v, steps') →
      Applies store fill near far ts steps v steps'

/-! ## Runs that are one part -/

theorem solid_singleton {separator : Kind} {t : Token} (ht : t.kind ≠ separator) (depth : Int) :
    Solid separator depth [t] := by
  refine Grammar.Solid.cons (fun h => ht h.2) ?_
  exact fun pre u post h => absurd h (by simp)

/-- A separator inside an enclosed run is inside its brackets. -/
theorem Enclosed.solid {shape : Bracket} {inside run : List Token} {separator : Kind}
    (h : Enclosed shape inside run) (hflat : separator.slope = 0) {depth : Int}
    (hdepth : 0 ≤ depth) : Solid separator depth run := by
  obtain ⟨opener, closer, shape', rfl, hopener, hcloser, hinside⟩ := enclosed_iff.1 h
  intro pre t post heq ht
  have hpre : pre <+: opener :: inside := by
    have hprefix : pre <+: opener :: inside ++ [closer] := ⟨t :: post, heq.symm⟩
    rcases List.prefix_concat_iff.1 hprefix with rfl | hpre
    · simp at heq
    · exact hpre
  have hne : pre ≠ [] := by
    rintro rfl
    obtain ⟨rfl, -⟩ := List.cons.inj heq
    rw [← ht, hopener] at hflat
    cases hflat
  have := (height_bracket hopener hcloser hinside).2 pre hpre hne
  omega

theorem solid_of_literalValue? (h : literalValue? ts = some v) : Solid (.operator .add) 0 ts := by
  unfold literalValue? at h
  split at h
  · exact solid_singleton (by simp) 0
  · exact solid_singleton (by simp) 0
  · exact solid_singleton (by simp) 0
  · cases h

/-- The run of a reference: a name, a name with a field, or a name with an index in
brackets. -/
theorem Reference.ofRun?_cases {r : Reference} (h : ofRun? ts = some r) :
    (∃ name span, ts = [⟨.word name, span⟩]) ∨
      (∃ object field s₁ s₂ s₃, ts = [⟨.word object, s₁⟩, ⟨.dot, s₂⟩, ⟨.word field, s₃⟩]) ∨
      ∃ array span index run, ts = ⟨.word array, span⟩ :: run ∧ Enclosed .square index run := by
  have hread := read?_of_ofRun? h
  fun_cases read? ts with
  | case1 object s₁ s₂ field s₃ rest =>
    obtain ⟨-, rfl⟩ := Prod.mk.inj (Option.some.inj hread)
    exact .inr (.inl ⟨object, field, s₁, s₂, s₃, rfl⟩)
  | case2 => simp_all [read?]
  | case3 array s₁ s₂ ts =>
    simp only [read?, Option.map_eq_some_iff] at hread
    obtain ⟨⟨inside, after⟩, hclosed, he⟩ := hread
    obtain ⟨-, rfl⟩ := Prod.mk.inj he
    obtain ⟨run, hrun, henclosed⟩ := (bracketed?_eq_some_iff .square s₂).1 hclosed
    rw [List.append_nil] at hrun
    exact .inr (.inr ⟨array, s₁, inside, run, by rw [hrun], henclosed⟩)
  | case4 name span rest hdot hsquare =>
    simp only [read?, Option.some.injEq, Prod.mk.injEq] at hread
    obtain ⟨-, rfl⟩ := hread
    exact .inl ⟨name, span, rfl⟩
  | case5 => simp_all [read?]

theorem solid_of_ofRun? {r : Reference} (h : Reference.ofRun? ts = some r) :
    Solid (.operator .add) 0 ts := by
  rcases Reference.ofRun?_cases h with ⟨name, span, rfl⟩ | ⟨_, _, _, _, _, rfl⟩ |
    ⟨array, span, index, run, rfl, henclosed⟩
  · exact solid_singleton (by simp) 0
  · refine Grammar.Solid.cons (by simp) (Grammar.Solid.cons (by simp) ?_)
    exact solid_singleton (by simp) _
  · exact Grammar.Solid.cons (by simp) (henclosed.solid rfl (Int.le_refl 0))

theorem balanced_of_ofRun? {r : Reference} (h : Reference.ofRun? ts = some r) :
    balanced ts = true := by
  rcases Reference.ofRun?_cases h with ⟨name, span, rfl⟩ | ⟨_, _, _, _, _, rfl⟩ |
    ⟨array, span, index, run, rfl, henclosed⟩
  · rfl
  · rfl
  · exact (balanced_cons_of_flat rfl).trans henclosed.balanced

/-- A part is one part. -/
theorem solid_of_mem_splitAtTop {separator : Kind} {part : List Token}
    (h : part ∈ splitAtTop separator ts) : Solid separator 0 part := by
  -- what follows the first separator is shorter
  induction hlength : ts.length using Nat.strong_induction_on generalizing ts with
  | _ n ih =>
  rcases Grammar.solid_or_first_separator separator 0 ts with
    hts | ⟨first, t, rest, rfl, ht, hzero, hfirst⟩
  · rw [Grammar.splitAtTop_of_solid hts, List.mem_singleton] at h
    rwa [h]
  · rw [Int.zero_add] at hzero
    rw [splitAtTop_append_cons hzero hfirst ht, List.mem_cons] at h
    rcases h with rfl | h
    · exact hfirst
    · refine ih rest.length ?_ h rfl
      rw [← hlength, List.length_append, List.length_cons]
      omega

/-- What is one part is not joined. -/
theorem result_joinedValue_of_solid (h : Solid (.operator .add) 0 ts) (near : Resolver)
    (steps : Nat) : (joinedValue near ts).result steps = (none, steps) := by
  unfold joinedValue
  simp only
  rw [Grammar.splitAtTop_of_solid h, if_pos (by simp)]
  rfl

theorem ofRun?_of_divided (h : 2 ≤ (splitAtTop (.operator .add) ts).length) :
    Reference.ofRun? ts = none := by
  rw [Option.eq_none_iff_forall_ne_some]
  intro r hr
  have := Grammar.splitAtTop_length_eq_one_iff.2 (solid_of_ofRun? hr)
  omega

/-! ## One rule after the other -/

theorem interpolatedValue_eq_some_iff :
    (interpolatedValue fill ts).result steps = (some v, steps') ↔
      ∃ raw span text, ts = [⟨.quoted .interpolated raw, span⟩] ∧
        (fill raw).result steps = (some text, steps') ∧ v = .text text := by
  constructor
  · intro h
    unfold interpolatedValue at h
    split at h
    · next raw span =>
      obtain ⟨text, between, htext, hv⟩ := Attempt.result_bind_eq_some_iff.1 h
      obtain ⟨rfl, rfl⟩ := Attempt.result_pure_iff.1 hv
      exact ⟨raw, span, text, rfl, htext, rfl⟩
    · cases h
  · rintro ⟨raw, span, text, rfl, htext, rfl⟩
    exact Attempt.result_bind_eq_some_iff.2 ⟨text, steps', htext, rfl⟩

/-- Without a step left the rules find no value. -/
theorem result_rules_of_exhausted (h : stepBudget ≤ steps) :
    (rules store fill near far ts).result steps = (none, steps + 1) := by
  rw [rules, Attempt.result_bind, Attempt.result_step, if_pos (Nat.lt_succ_of_le h)]

theorem result_resolve_of_exhausted (h : stepBudget ≤ steps) (level room : Nat)
    (ts : List Token) : (resolve store level room ts).result steps = (none, steps + 1) := by
  cases room with
  | zero =>
    rw [resolve_eq, resolveIn, Attempt.result_bind, Attempt.result_step,
      if_pos (Nat.lt_succ_of_le h)]
  | succ room =>
    rw [resolve_succ]
    exact result_rules_of_exhausted h

/-- With a step left they are tried in order. -/
theorem result_rules_of_lt (hsteps : steps < stepBudget) (hne : ts ≠ []) :
    (rules store fill near far ts).result steps =
      (.ofOption (literalValue? ts) <|> interpolatedValue fill ts <|>
        referenceValue store near ts <|> arithmeticValue store far ts <|>
          joinedValue near ts : Attempt Value).result (steps + 1) := by
  rw [rules, Attempt.result_bind, Attempt.result_step, if_neg (Nat.not_lt.2 hsteps)]
  simp only
  rw [if_neg (by simpa using hne)]

/-! ## Runs that are left to the first rules -/

/-- The run is no reference, not arithmetic and not divided. -/
structure Atomic (store : Store) (far : Resolver) (ts : List Token) : Prop where
  reference : Reference.ofRun? ts = none
  arithmetic : ∀ steps w steps', (arithmeticValue store far ts).result steps ≠ (some w, steps')
  solid : Solid (.operator .add) 0 ts

theorem atomic_nil : Atomic store far [] := by
  refine ⟨rfl, fun steps w steps' h => ?_, fun pre t post h => absurd h (by simp)⟩
  obtain ⟨-, kinds, tree, hkinds, htree, -⟩ := arithmeticValue_eq_some_iff.1 h
  rw [operands_nil] at hkinds
  obtain ⟨rfl, -⟩ := Attempt.result_mapM_nil_iff.1 hkinds
  cases htree

/-- So is a token that is neither a name nor a number. -/
theorem atomic_of_single {t : Token} (hname : t.kind.name? = none)
    (hnumber : ∀ x, t.kind ≠ .number x) (hsolid : Solid (.operator .add) 0 [t]) :
    Atomic store far [t] := by
  refine ⟨?_, fun steps w steps' h => ?_, hsolid⟩
  · rw [Option.eq_none_iff_forall_ne_some]
    intro r hr
    obtain ⟨name, hword⟩ := Reference.exists_name_of_read? (Reference.read?_of_ofRun? hr)
    rw [hname] at hword
    cases hword
  · obtain ⟨-, kinds, tree, -, -, rfl⟩ := arithmeticValue_eq_some_iff.1 h
    have hundivided : Undivided store far far [t] steps tree.eval steps' := .inr h
    exact not_undivided_of_single hname hnumber hundivided

theorem atomic_of_literalValue? (h : literalValue? ts = some v) : Atomic store far ts := by
  have hsolid := solid_of_literalValue? h
  obtain ⟨⟨t, rfl, hname, hnumber⟩, -⟩ := literalValue?_cases h
  exact atomic_of_single hname hnumber hsolid

theorem atomic_interpolated (raw : String) (span : Text.Span) :
    Atomic store far [⟨.quoted .interpolated raw, span⟩] :=
  atomic_of_single rfl nofun (solid_singleton (by simp) 0)

theorem Atomic.result_ne (h : Atomic store far ts) (near : Resolver) :
    (referenceValue store near ts <|> arithmeticValue store far ts <|>
      joinedValue near ts : Attempt Value).result steps ≠ (some v, steps') := by
  rw [Attempt.result_orElse_of_none (referenceValue_of_none h.reference)]
  intro hv
  rcases Attempt.result_orElse_eq_some_iff.1 hv with hv | ⟨failed, -, hv⟩
  · exact h.arithmetic _ _ _ hv
  · rw [result_joinedValue_of_solid h.solid] at hv
    cases hv

/-- All other runs are left to the rules behind the first two. -/
theorem plain_of_not_atomic (h : ¬Atomic store far ts) (fill : String → Attempt String) :
    literalValue? ts = none ∧ interpolatedValue fill ts = failure := by
  constructor
  · rw [Option.eq_none_iff_forall_ne_some]
    intro w hw
    exact h (atomic_of_literalValue? hw)
  · unfold interpolatedValue
    split
    · next raw span => exact absurd (atomic_interpolated raw span) h
    · rfl

theorem result_rules_of_not_atomic (hsteps : steps < stepBudget) (h : ¬Atomic store far ts) :
    (rules store fill near far ts).result steps =
      (referenceValue store near ts <|> arithmeticValue store far ts <|>
        joinedValue near ts : Attempt Value).result (steps + 1) := by
  obtain ⟨hliteral, hstring⟩ := plain_of_not_atomic h fill
  have hne : ts ≠ [] := by
    rintro rfl
    exact h atomic_nil
  rw [result_rules_of_lt hsteps hne, hliteral, hstring,
    Attempt.result_orElse_of_none (Attempt.result_ofOption none _),
    Attempt.result_orElse_of_none (Attempt.result_failure _)]

/-! ## The rule that applies -/

theorem applies_of_result (hsteps : steps < stepBudget)
    (h : (rules store fill near far ts).result steps = (some v, steps')) :
    Applies store fill near far ts (steps + 1) v steps' := by
  by_cases hatomic : Atomic store far ts
  · have hne : ts ≠ [] := by
      rintro rfl
      rw [rules, Attempt.result_bind, Attempt.result_step, if_neg (Nat.not_lt.2 hsteps)] at h
      cases h
    rw [result_rules_of_lt hsteps hne] at h
    rcases Attempt.result_orElse_eq_some_iff.1 h with h | ⟨_, hnone, h⟩
    · obtain ⟨hliteral, rfl⟩ := Attempt.result_ofOption_iff.1 h
      exact .literal hliteral
    · obtain ⟨-, rfl⟩ := Prod.mk.inj hnone
      rcases Attempt.result_orElse_eq_some_iff.1 h with h | ⟨_, -, h⟩
      · obtain ⟨raw, span, text, hts, htext, rfl⟩ := interpolatedValue_eq_some_iff.1 h
        exact .interpolated hts htext
      · exact absurd h (hatomic.result_ne near)
  · rw [result_rules_of_not_atomic hsteps hatomic] at h
    cases hr : Reference.ofRun? ts with
    | none =>
      rw [Attempt.result_orElse_of_none (referenceValue_of_none hr)] at h
      rcases Attempt.result_orElse_eq_some_iff.1 h with h | ⟨_, hfailed, h⟩
      · exact .arithmetic h
      · exact .joined hfailed h
    | some r =>
      rcases Attempt.result_orElse_eq_some_iff.1 h with h | ⟨_, -, h⟩
      · obtain ⟨r, hr, h⟩ := referenceValue_eq_some_iff.1 h
        exact .reference hr h
      · -- a reference is tried once
        rcases Attempt.result_orElse_eq_some_iff.1 h with h | ⟨_, -, h⟩
        · obtain ⟨hnone, -⟩ := arithmeticValue_eq_some_iff.1 h
          rw [hr] at hnone
          cases hnone
        · rw [result_joinedValue_of_solid (solid_of_ofRun? hr)] at h
          cases h

/-- The rules find a value exactly if there is a step left and one of them applies. -/
theorem result_rules_eq_some_iff :
    (rules store fill near far ts).result steps = (some v, steps') ↔
      steps < stepBudget ∧ Applies store fill near far ts (steps + 1) v steps' := by
  constructor
  · intro h
    have hsteps : steps < stepBudget := by
      by_contra hge
      rw [result_rules_of_exhausted (Nat.not_lt.1 hge)] at h
      cases h
    exact ⟨hsteps, applies_of_result hsteps h⟩
  · rintro ⟨hsteps, h⟩
    cases h with
    | literal h => exact result_rules_of_literal h hsteps store fill near far
    | @interpolated raw text span _ hts htext =>
      subst hts
      have hliteral : literalValue? [⟨.quoted .interpolated raw, span⟩] = none := rfl
      rw [result_rules_of_lt hsteps (List.cons_ne_nil _ _), hliteral,
        Attempt.result_orElse_of_none (Attempt.result_ofOption none _)]
      exact Attempt.result_orElse_eq_some_iff.2
        (.inl (interpolatedValue_eq_some_iff.2 ⟨raw, span, text, rfl, htext, rfl⟩))
    | reference hr h =>
      rw [result_rules_of_not_atomic hsteps fun hatomic => by cases hr.symm.trans hatomic.reference]
      exact Attempt.result_orElse_eq_some_iff.2 (.inl (referenceValue_eq_some_iff.2 ⟨_, hr, h⟩))
    | arithmetic h =>
      rw [result_rules_of_not_atomic hsteps fun hatomic => hatomic.arithmetic _ _ _ h,
        Attempt.result_orElse_of_none
          (referenceValue_of_none (arithmeticValue_eq_some_iff.1 h).1)]
      exact Attempt.result_orElse_eq_some_iff.2 (.inl h)
    | joined hfailed h =>
      have hdivided : ¬Solid (.operator .add) 0 ts := by
        intro hsolid
        rw [result_joinedValue_of_solid hsolid] at h
        cases h
      have hnone : Reference.ofRun? ts = none := by
        rw [Option.eq_none_iff_forall_ne_some]
        intro r hr
        exact hdivided (solid_of_ofRun? hr)
      rw [result_rules_of_not_atomic hsteps fun hatomic => hdivided hatomic.solid,
        Attempt.result_orElse_of_none (referenceValue_of_none hnone)]
      exact Attempt.result_orElse_eq_some_iff.2 (.inr ⟨_, hfailed, h⟩)

/-- All other rules fail on a reference. -/
theorem result_rules_of_ofRun? {r : Reference} (hr : Reference.ofRun? ts = some r) :
    (rules store fill near far ts).result steps = (some v, steps') ↔
      steps < stepBudget ∧ (referenceValue store near ts).result (steps + 1) = (some v, steps') := by
  have hsolid := solid_of_ofRun? hr
  rw [result_rules_eq_some_iff]
  refine and_congr_right fun _ => ⟨fun h => ?_, fun h => ?_⟩
  · cases h with
    | literal h =>
      have hatomic : Atomic store far ts := atomic_of_literalValue? h
      cases hr.symm.trans hatomic.reference
    | interpolated hts =>
      subst hts
      cases hr
    | reference hr h => exact referenceValue_eq_some_iff.2 ⟨_, hr, h⟩
    | arithmetic h =>
      have hnone := (arithmeticValue_eq_some_iff.1 h).1
      rw [hr] at hnone
      cases hnone
    | joined _ h =>
      rw [result_joinedValue_of_solid hsolid] at h
      cases h
  · obtain ⟨r, hr, h⟩ := referenceValue_eq_some_iff.1 h
    exact .reference hr h

/-- So it is for any run and room: a rule applies, with the resolvers further down. -/
theorem applies_of_resolve {level room : Nat}
    (h : (resolve store level room ts).result steps = (some v, steps')) :
    Applies store (fillAt store level) (resolve store level (room - 1))
      (resolve store level (room - 2)) ts (steps + 1) v steps' := by
  cases room with
  | zero => exact absurd h resolve_zero_ne
  | succ room =>
    rw [resolve_succ] at h
    exact (result_rules_eq_some_iff.1 h).2

end SnippetConsole
