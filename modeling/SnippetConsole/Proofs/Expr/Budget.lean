import SnippetConsole.Proofs.Expr.Rules

/-!
# Running out of steps

An attempt that finds no step left has no value, and neither has what needs its value.
Numbers are found within the budget, so references and arithmetic are too. Only the
holes of an interpolated string may fail without harm. So an expression keeps its
value beyond the budget just where the last of its parts is an interpolated string
and steps run out inside.

* `Attempt.StaysWithin` — what ends within the budget if it starts there.
* `punctual_resolve` — numbers are found within the budget.
* `value_of_exhausted` — which expressions lose their value.
-/

namespace SnippetConsole

namespace Attempt

variable {α β : Type}

/-! ## Ending within the budget -/

/-- Started within the budget, the attempt comes to nothing beyond it. -/
def StaysWithin (a : Attempt α) : Prop :=
  ∀ steps x steps', a.result steps = (some x, steps') → steps ≤ stepBudget → steps' ≤ stepBudget

theorem staysWithin_ofOption (o : Option α) : (ofOption o).StaysWithin := by
  intro steps x steps' h hsteps
  obtain ⟨-, rfl⟩ := result_ofOption_iff.1 h
  exact hsteps

theorem StaysWithin.bind {a : Attempt α} {f : α → Attempt β} (ha : a.StaysWithin)
    (hf : ∀ x, (f x).StaysWithin) : (a >>= f).StaysWithin := by
  intro steps y steps' h hsteps
  obtain ⟨x, between, hx, hy⟩ := result_bind_eq_some_iff.1 h
  exact hf x between y steps' hy (ha steps x between hx hsteps)

theorem staysWithin_mapM {f : α → Attempt β} (hf : ∀ x, (f x).StaysWithin) (xs : List α) :
    (xs.mapM f).StaysWithin := by
  induction xs with
  | nil => exact staysWithin_ofOption (some [])
  | cons x xs ih =>
    rw [List.mapM_cons]
    exact (hf x).bind fun y => ih.bind fun ys => staysWithin_ofOption (some (y :: ys))

/-! ## Coming to something -/

/-- The attempt never fails. -/
def Total (a : Attempt α) : Prop := ∀ steps, ∃ x steps', a.result steps = (some x, steps')

theorem total_pure (x : α) : (pure x : Attempt α).Total := fun steps => ⟨x, steps, rfl⟩

theorem Total.bind {a : Attempt α} {f : α → Attempt β} (ha : a.Total) (hf : ∀ x, (f x).Total) :
    (a >>= f).Total := by
  intro steps
  obtain ⟨x, between, hx⟩ := ha steps
  obtain ⟨y, steps', hy⟩ := hf x between
  exact ⟨y, steps', result_bind_eq_some_iff.2 ⟨x, between, hx, hy⟩⟩

theorem Total.orElse (a : Attempt α) {b : Attempt α} (hb : b.Total) : (a <|> b).Total := by
  intro steps
  rw [result_orElse]
  rcases a.result steps with ⟨_ | x, failed⟩
  · exact hb failed
  · exact ⟨x, failed, rfl⟩

theorem total_mapM {f : α → Attempt β} (hf : ∀ x, (f x).Total) (xs : List α) :
    (xs.mapM f).Total := by
  induction xs with
  | nil => exact total_pure []
  | cons x xs ih =>
    rw [List.mapM_cons]
    exact (hf x).bind fun y => ih.bind fun ys => total_pure (y :: ys)

end Attempt

section

variable {store : Store} {near far : Resolver} {ts : List Token}

/-- A hole without a value stays as it is written, so filling never fails. -/
theorem Piece.total_fill (store : Store) (near : Resolver) (piece : Piece) :
    (piece.fill store near).Total := by
  cases piece with
  | char c => exact Attempt.total_pure [c]
  | hole inner => exact (Attempt.total_pure _).orElse _

theorem total_fillAt (store : Store) (level : Nat) (raw : String) :
    (fillAt store level raw).Total := by
  cases level with
  | zero => exact Attempt.total_pure raw
  | succ level =>
    exact (Attempt.total_mapM (Piece.total_fill store _) _).bind fun _ => Attempt.total_pure _

/-! ## Numbers are found within the budget -/

/-- The resolver comes to no number beyond the budget. -/
def Punctual (near : Resolver) : Prop :=
  ∀ ts steps x steps', (near ts).result steps = (some (.number x), steps') → steps' ≤ stepBudget

theorem Reference.staysWithin_value (h : Punctual near) (r : Reference) :
    (r.value store near).StaysWithin := by
  cases r with
  | binding name => exact Attempt.staysWithin_ofOption _
  | member object field => exact Attempt.staysWithin_ofOption _
  | slot array ts =>
    refine (Attempt.staysWithin_ofOption (store.array? array)).bind fun slots => ?_
    intro steps v steps' hread _
    obtain ⟨i, between, hi, hslot⟩ := Attempt.result_bind_eq_some_iff.1 hread
    obtain ⟨hvalue, rfl⟩ := Attempt.result_ofOption_iff.1 hslot
    -- only a number is an index
    obtain ⟨n, hn, -⟩ := Option.bind_eq_some_iff.1 hvalue
    obtain ⟨x, rfl⟩ := Value.isNumber_of_index? hn
    exact h _ _ _ _ hi

theorem Operand.staysWithin_kindIn (h : Punctual far) (operand : Operand) :
    (operand.kindIn store far).StaysWithin := by
  cases operand with
  | plain kind => exact Attempt.staysWithin_ofOption (some kind)
  | broken => exact Attempt.staysWithin_ofOption none
  | ref r =>
    refine (r.staysWithin_value h).bind fun v => ?_
    exact (Attempt.staysWithin_ofOption v.number?).bind fun x =>
      Attempt.staysWithin_ofOption (some (Kind.number x))

theorem Undivided.le_budget (hnear : Punctual near) (hfar : Punctual far) {steps steps' : Nat}
    {x : Float} (h : Undivided store near far ts steps x steps') (hsteps : steps ≤ stepBudget) :
    steps' ≤ stepBudget := by
  rcases h with h | h
  · obtain ⟨r, -, h⟩ := referenceValue_eq_some_iff.1 h
    exact r.staysWithin_value hnear _ _ _ h hsteps
  · obtain ⟨-, kinds, tree, hkinds, -⟩ := arithmeticValue_eq_some_iff.1 h
    exact Attempt.staysWithin_mapM (Operand.staysWithin_kindIn hfar) _ _ _ _ hkinds hsteps

theorem punctual_resolve (store : Store) (level room : Nat) :
    Punctual (resolve store level room) := by
  induction room using Nat.strong_induction_on with
  | h room ih =>
    intro ts steps x steps' h
    have hpos : 0 < room := by
      rw [Nat.pos_iff_ne_zero]
      rintro rfl
      exact resolve_zero_ne h
    obtain ⟨hsteps, hundivided⟩ := (numbers_of_resolve store level room).1 ts steps x steps' h
    exact hundivided.le_budget (ih _ (by omega)) (ih _ (by omega)) hsteps

/-! ## Values beyond the budget -/

/-- Of the rules, only those for interpolated strings and for parts go beyond the budget. -/
theorem Applies.string_or_joined {fill : String → Attempt String} {steps steps' : Nat} {v : Value}
    (h : Applies store fill near far ts steps v steps') (hnear : Punctual near)
    (hfar : Punctual far) (hsteps : steps ≤ stepBudget) (hexhausted : stepBudget < steps') :
    (∃ raw span, ts = [⟨.quoted .interpolated raw, span⟩]) ∨
      ∃ failed, (arithmeticValue store far ts).result steps = (none, failed) ∧
        (joinedValue near ts).result failed = (some v, steps') := by
  cases h with
  | literal => omega
  | interpolated hts => exact .inl ⟨_, _, hts⟩
  | reference hr h =>
    have := Reference.staysWithin_value hnear _ _ _ _ h hsteps
    omega
  | arithmetic h =>
    obtain ⟨-, kinds, tree, -, -, rfl⟩ := arithmeticValue_eq_some_iff.1 h
    have := Undivided.le_budget hnear hfar (.inr h) hsteps
    omega
  | joined hfailed h => exact .inr ⟨_, hfailed, h⟩

/-- A part goes beyond the budget only as an interpolated string. -/
theorem string_of_part {level room steps steps' : Nat} {v : Value}
    (hsolid : Solid (.operator .add) 0 ts)
    (h : (resolve store level room ts).result steps = (some v, steps'))
    (hexhausted : stepBudget < steps') :
    ∃ raw span, ts = [⟨.quoted .interpolated raw, span⟩] := by
  cases room with
  | zero => exact absurd h resolve_zero_ne
  | succ room =>
    rw [resolve_succ] at h
    obtain ⟨hsteps, happlies⟩ := result_rules_eq_some_iff.1 h
    rcases happlies.string_or_joined (punctual_resolve store level room)
      (punctual_resolve store level (room - 1)) hsteps hexhausted with hstring | ⟨failed, -, h⟩
    · exact hstring
    · rw [result_joinedValue_of_solid hsolid] at h
      cases h

/-! ## What is worth a value without steps left -/

/-- Resolving a text at a level comes to the last of its parts, which the given ones
stand before: either there are no others, or arithmetic has failed on the whole run, the
others have values, and there is a step left for the last one. -/
inductive ReachesLast (store : Store) (level : Nat) (ts : List Token) : List (List Token) → Prop
  | only : ReachesLast store level ts []
  | after {before : List (List Token)} {failed left : Nat} {values : List Value} : before ≠ [] →
      (arithmeticValue store (resolve store level (deepest - 1)) ts).result 1 = (none, failed) →
      (before.mapM (resolve store level deepest)).result failed = (some values, left) →
      left < stepBudget → ReachesLast store level ts before

theorem reachesLast_of_result {level : Nat} {steps' : Nat} {v : Value}
    (h : (resolve store level (deepest + 1) ts).result 0 = (some v, steps'))
    (hexhausted : stepBudget < steps') :
    ∃ before raw span, splitAtTop (.operator .add) ts =
      before ++ [[⟨.quoted .interpolated raw, span⟩]] ∧ ReachesLast store level ts before := by
  rw [resolve_succ] at h
  obtain ⟨hsteps, happlies⟩ := result_rules_eq_some_iff.1 h
  rcases happlies.string_or_joined (punctual_resolve store level deepest)
    (punctual_resolve store level (deepest - 1)) hsteps hexhausted with
    ⟨raw, span, rfl⟩ | ⟨failed, hfailed, hjoined⟩
  · exact ⟨[], raw, span, rfl, .only⟩
  · obtain ⟨hlength, values, hvalues, -⟩ := joinedValue_eq_some_iff.1 hjoined
    obtain ⟨before, last, hparts⟩ : ∃ before last,
        splitAtTop (.operator .add) ts = before ++ [last] :=
      ⟨_, _, (List.dropLast_append_getLast (splitAtTop_ne_nil _ ts)).symm⟩
    have hlast : last ∈ splitAtTop (.operator .add) ts := by simp [hparts]
    rw [hparts] at hvalues
    obtain ⟨earlier, left, later, hearlier, hlater, -⟩ := Attempt.result_mapM_append_iff.1 hvalues
    obtain ⟨w, between, _, hw, hnil, -⟩ := Attempt.result_mapM_cons_iff.1 hlater
    obtain ⟨-, rfl⟩ := Attempt.result_mapM_nil_iff.1 hnil
    obtain ⟨raw, span, rfl⟩ := string_of_part (solid_of_mem_splitAtTop hlast) hw hexhausted
    have hleft : left < stepBudget := by
      by_contra hge
      rw [result_resolve_of_exhausted (Nat.not_lt.1 hge)] at hw
      cases hw
    have hbefore : before ≠ [] := by
      rintro rfl
      simp [hparts] at hlength
    exact ⟨before, raw, span, hparts, .after hbefore hfailed hearlier hleft⟩

/-- An interpolated string has a value wherever a step is left for it. -/
theorem exists_result_interpolated (store : Store) (level room : Nat) {steps : Nat}
    (h : steps < stepBudget) (raw : String) (span : Text.Span) :
    ∃ v steps', (resolve store level (room + 1) [⟨.quoted .interpolated raw, span⟩]).result steps =
      (some v, steps') := by
  obtain ⟨text, steps', htext⟩ := total_fillAt store level raw (steps + 1)
  refine ⟨.text text, steps', ?_⟩
  rw [resolve_succ]
  exact result_rules_eq_some_iff.2 ⟨h, .interpolated rfl htext⟩

theorem exists_result_of_reachesLast {level : Nat} {before : List (List Token)} {raw : String}
    {span : Text.Span}
    (hparts : splitAtTop (.operator .add) ts = before ++ [[⟨.quoted .interpolated raw, span⟩]])
    (h : ReachesLast store level ts before) :
    ∃ v steps', (resolve store level (deepest + 1) ts).result 0 = (some v, steps') := by
  cases h with
  | only =>
    have hsolid : Solid (.operator .add) 0 ts :=
      Grammar.splitAtTop_length_eq_one_iff.1 (by rw [hparts]; rfl)
    rw [Grammar.splitAtTop_of_solid hsolid] at hparts
    obtain ⟨rfl, -⟩ := List.cons.inj hparts
    exact exists_result_interpolated store level deepest (by decide) raw span
  | @after _ failed left values hbefore hfailed hvalues hleft =>
    obtain ⟨w, steps', hw⟩ := exists_result_interpolated store level (deepest - 1) hleft raw span
    have hall : ((splitAtTop (.operator .add) ts).mapM (resolve store level deepest)).result failed
        = (some (values ++ [w]), steps') := by
      rw [hparts]
      exact Attempt.result_mapM_append_iff.2
        ⟨_, _, _, hvalues, Attempt.result_mapM_cons_iff.2 ⟨w, steps', [], hw, rfl, rfl⟩, rfl⟩
    have hlength : 2 ≤ (splitAtTop (.operator .add) ts).length := by
      have := List.length_pos_of_ne_nil hbefore
      rw [hparts, List.length_append, List.length_singleton]
      omega
    obtain ⟨v, hv⟩ : ∃ v, joinValues (values ++ [w]) = some v := by
      cases values <;> exact ⟨_, rfl⟩
    refine ⟨v, steps', ?_⟩
    rw [resolve_succ]
    exact result_rules_eq_some_iff.2 ⟨by decide, .joined hfailed
      (joinedValue_eq_some_iff.2 ⟨hlength, _, hall, hv⟩)⟩

end

/-! ## Whole texts -/

/-- An expression that takes more steps than it may stands for its own text, unless its
last part is an interpolated string that is still reached within the budget: the holes in
it that cannot be resolved any more stay as they are, and do not make it fail. -/
theorem value_of_exhausted {store : Store} {expr : Expr} {ts : List Token}
    (hlex : lex expr.text = .ok ts) (h : stepBudget < stepsUsed store expr.text) :
    evaluate? store expr.text = none ∧ expr.value store = .text expr.text ↔
      ¬∃ before raw span, splitAtTop (.operator .add) ts =
        before ++ [[⟨.quoted .interpolated raw, span⟩]] ∧
          ReachesLast store expr.text.length ts before := by
  have hattempt : attempt store expr.text = resolve store expr.text.length (deepest + 1) ts := by
    rw [attempt, hlex]
  have hvalue : evaluate? store expr.text = none →
      evaluate? store expr.text = none ∧ expr.value store = .text expr.text := by
    intro hnone
    rw [Expr.value, hnone]
    exact ⟨rfl, rfl⟩
  constructor
  · rintro ⟨hnone, -⟩ ⟨before, raw, span, hparts, hreaches⟩
    obtain ⟨v, steps', hv⟩ := exists_result_of_reachesLast hparts hreaches
    rw [evaluate?, hattempt, hv] at hnone
    cases hnone
  · intro hne
    refine hvalue (Option.eq_none_iff_forall_ne_some.2 fun v hv => hne ?_)
    rw [evaluate?, hattempt] at hv
    rw [stepsUsed, hattempt] at h
    exact reachesLast_of_result (Prod.ext hv rfl) h

/-- An index that is no reference at each of so many levels, and so is resolved twice
there: once as arithmetic and once as the first of two parts. -/
def nestedIndex : Nat → String
  | 0 => "9"
  | depth + 1 => "n[" ++ nestedIndex depth ++ "+0]"

/-- The raw text with such an index and a name in its holes. -/
def exhaustingText : String := "\x7b" ++ nestedIndex 12 ++ "\x7d \x7bs\x7d"

theorem result_exhaustingText :
    let store := (({} : Store).define "s" (.text "!")).putArray "n" (.unset 1)
    (attempt store ("$\"" ++ exhaustingText ++ "\"")).result 0 =
      (some (.text ("\x7b" ++ nestedIndex 12 ++ "\x7d !")), 4101) := by
  decide +kernel

/-- Steps run out in the first of two holes, and the string is still filled in part. -/
theorem evaluate?_ne_none_of_exhausted :
    let store := (({} : Store).define "s" (.text "!")).putArray "n" (.unset 1)
    let text := "$\"" ++ exhaustingText ++ "\""
    stepBudget < stepsUsed store text ∧ evaluate? store text ≠ none := by
  intro store text
  rw [stepsUsed, evaluate?, result_exhaustingText]
  exact ⟨by decide, Option.some_ne_none _⟩

/-- That string is the last part, and all of it. -/
theorem value_of_exhausted_only :
    let store := (({} : Store).define "s" (.text "!")).putArray "n" (.unset 1)
    let text := "$\"" ++ exhaustingText ++ "\""
    lex text = .ok [⟨.quoted .interpolated exhaustingText, ⟨0, 70⟩⟩] ∧
      stepBudget < stepsUsed store text ∧
        ¬(evaluate? store text = none ∧ Expr.value store ⟨text⟩ = .text text) := by
  intro store text
  have hlex : lex text = .ok [⟨.quoted .interpolated exhaustingText, ⟨0, 70⟩⟩] := by
    decide +kernel
  have hexhausted : stepBudget < stepsUsed store text := by
    rw [stepsUsed, result_exhaustingText]
    decide
  have hvalue := @value_of_exhausted store ⟨text⟩ _ hlex hexhausted
  exact ⟨hlex, hexhausted, fun h => hvalue.1 h ⟨[], exhaustingText, _, rfl, .only⟩⟩

end SnippetConsole
