import SnippetConsole.Proofs.Arith.Grammar
import SnippetConsole.Proofs.Expr.Kinds
import SnippetConsole.Proofs.Expr.Operands
import SnippetConsole.Proofs.Expr.Steps
import SnippetConsole.Proofs.Statement.Scattered

/-!
# Where numbers come from

A run that is worth a number is one reference or arithmetic. Parts between plus signs
are joined only after arithmetic has failed, and where all of them are numbers it has
not: the operands of the run are those of its parts, their references are looked up
with at least as much room as in the parts, and after fewer steps.

* `Direct` — a run that is worth a number without being divided.
* `rules_cases` — the rules by which a run may be worth a number.
* `joined_ne_number` — joining is not one of them.
* `numbers_of_resolve` — so all numbers are direct, with any room.
-/

namespace SnippetConsole

/-! ## Single rules -/

section

variable {store : Store} {near far : Resolver} {ts : List Token} {steps steps' : Nat} {v : Value}

theorem referenceValue_eq_some_iff :
    (referenceValue store near ts).result steps = (some v, steps') ↔
      ∃ r, Reference.ofRun? ts = some r ∧ (r.value store near).result steps = (some v, steps') := by
  simp only [referenceValue, Attempt.result_bind_eq_some_iff, Attempt.result_ofOption_iff]
  constructor
  · rintro ⟨r, _, ⟨hr, rfl⟩, h⟩
    exact ⟨r, hr, h⟩
  · rintro ⟨r, hr, h⟩
    exact ⟨r, steps, ⟨hr, rfl⟩, h⟩

theorem referenceValue_of_none (h : Reference.ofRun? ts = none) :
    (referenceValue store near ts).result steps = (none, steps) := by
  rw [referenceValue, h]
  rfl

theorem arithmeticValue_eq_some_iff :
    (arithmeticValue store far ts).result steps = (some v, steps') ↔
      Reference.ofRun? ts = none ∧ ∃ kinds tree,
        ((operands ts).mapM (Operand.kindIn store far)).result steps = (some kinds, steps') ∧
          Tree.ofKinds? kinds = some tree ∧ v = .number tree.eval := by
  unfold arithmeticValue
  cases hr : Reference.ofRun? ts with
  | some r =>
    constructor
    · nofun
    · nofun
  | none =>
    simp only [Option.isSome_none, Bool.false_eq_true, if_false, Attempt.result_bind_eq_some_iff,
      Attempt.result_ofOption_iff, Attempt.result_pure_iff, true_and]
    constructor
    · rintro ⟨kinds, _, hkinds, tree, _, ⟨htree, rfl⟩, rfl, rfl⟩
      exact ⟨kinds, tree, hkinds, htree, rfl⟩
    · rintro ⟨kinds, tree, hkinds, htree, rfl⟩
      exact ⟨kinds, steps', hkinds, tree, steps', ⟨htree, rfl⟩, rfl, rfl⟩

/-- Arithmetic ends where its operands have been looked up, or where one of them fails. -/
theorem result_arithmeticValue (hr : Reference.ofRun? ts = none) {kinds : Option (List Kind)}
    (h : ((operands ts).mapM (Operand.kindIn store far)).result steps = (kinds, steps')) :
    (arithmeticValue store far ts).result steps =
      ((kinds.bind Tree.ofKinds?).map fun tree => .number tree.eval, steps') := by
  rw [arithmeticValue, hr, Option.isSome_none, if_neg Bool.false_ne_true, Attempt.result_bind, h]
  cases kinds with
  | none => rfl
  | some kinds =>
    simp only
    rw [Attempt.result_bind, Attempt.result_ofOption, Option.bind_some]
    cases Tree.ofKinds? kinds <;> rfl

theorem Operand.kindIn_ref_eq_some_iff {r : Reference} {kind : Kind} :
    (Operand.kindIn store far (.ref r)).result steps = (some kind, steps') ↔
      ∃ x, kind = .number x ∧ (r.value store far).result steps = (some (.number x), steps') := by
  rw [Operand.kindIn, Attempt.result_bind_eq_some_iff]
  constructor
  · rintro ⟨v, between, hv, h⟩
    cases v with
    | number x =>
      obtain ⟨rfl, rfl⟩ := Attempt.result_pure_iff.1 h
      exact ⟨x, rfl, hv⟩
    | truth b => cases h
    | text s => cases h
  · rintro ⟨x, rfl, hx⟩
    exact ⟨.number x, steps', hx, rfl⟩

/-- Operands that are looked up are not cut short. -/
theorem broken_not_mem_of_mapM {os : List Operand} {kinds : List Kind}
    (h : (os.mapM (Operand.kindIn store far)).result steps = (some kinds, steps')) :
    .broken ∉ os := by
  induction os generalizing steps kinds with
  | nil => exact List.not_mem_nil
  | cons o os ih =>
    obtain ⟨kind, between, later, ho, hos, rfl⟩ := Attempt.result_mapM_cons_iff.1 h
    rw [List.mem_cons, not_or]
    refine ⟨?_, ih hos⟩
    rintro rfl
    cases ho

theorem literalValue?_cases (h : literalValue? ts = some v) :
    (∃ t, ts = [t] ∧ t.kind.name? = none ∧ ∀ x, t.kind ≠ .number x) ∧ ∀ x, v ≠ .number x := by
  unfold literalValue? at h
  split at h
  · obtain rfl := Option.some.inj h
    exact ⟨⟨_, rfl, rfl, nofun⟩, nofun⟩
  · obtain rfl := Option.some.inj h
    exact ⟨⟨_, rfl, rfl, nofun⟩, nofun⟩
  · obtain rfl := Option.some.inj h
    exact ⟨⟨_, rfl, rfl, nofun⟩, nofun⟩
  · cases h

theorem interpolatedValue_cases (fill : String → Attempt String) (ts : List Token) :
    (∃ t, ts = [t] ∧ t.kind.name? = none ∧ ∀ x, t.kind ≠ .number x) ∨
      interpolatedValue fill ts = failure := by
  unfold interpolatedValue
  split
  · exact .inl ⟨_, rfl, rfl, nofun⟩
  · exact .inr rfl

theorem interpolatedValue_ne_number {fill : String → Attempt String} (x : Float) :
    (interpolatedValue fill ts).result steps ≠ (some (.number x), steps') := by
  unfold interpolatedValue
  split
  · intro h
    obtain ⟨text, between, -, hpure⟩ := Attempt.result_bind_eq_some_iff.1 h
    cases hpure
  · nofun

end

/-! ## Direct numbers -/

/-- The run is worth the number as a reference or as arithmetic. -/
def Undivided (store : Store) (near far : Resolver) (ts : List Token) (steps : Nat) (x : Float)
    (steps' : Nat) : Prop :=
  (referenceValue store near ts).result steps = (some (.number x), steps') ∨
    (arithmeticValue store far ts).result steps = (some (.number x), steps')

/-- The same after the step that resolving the run costs. -/
def Direct (store : Store) (near far : Resolver) (ts : List Token) (steps : Nat) (x : Float)
    (steps' : Nat) : Prop :=
  steps < stepBudget ∧ Undivided store near far ts (steps + 1) x steps'

section

variable {store : Store} {near far : Resolver} {ts : List Token} {steps steps' : Nat} {x : Float}

theorem ofKinds?_singleton {kind : Kind} {tree : Tree} (h : Tree.ofKinds? [kind] = some tree) :
    ∃ x, kind = .number x := by
  cases kind with
  | number x => exact ⟨x, rfl⟩
  | operator op => cases op <;> cases h
  | opening shape => cases shape <;> cases h
  | _ => cases h

/-- A lone token that is neither a name nor a number is worth no number. -/
theorem not_undivided_of_single {t : Token} (hname : t.kind.name? = none)
    (hnumber : ∀ x, t.kind ≠ .number x) : ¬Undivided store near far [t] steps x steps' := by
  have hoperands : operands [t] = [.plain t.kind] := by rw [operands_plain hname, operands_nil]
  rintro (h | h)
  · obtain ⟨r, hr, -⟩ := referenceValue_eq_some_iff.1 h
    rw [operands_of_ofRun? hr] at hoperands
    cases hoperands
  · obtain ⟨-, kinds, tree, hkinds, htree, -⟩ := arithmeticValue_eq_some_iff.1 h
    rw [hoperands] at hkinds
    obtain ⟨kind, between, later, hkind, hlater, rfl⟩ := Attempt.result_mapM_cons_iff.1 hkinds
    obtain ⟨rfl, -⟩ := Attempt.result_pure_iff.1 hkind
    obtain ⟨rfl, -⟩ := Attempt.result_mapM_nil_iff.1 hlater
    obtain ⟨y, hy⟩ := ofKinds?_singleton htree
    exact hnumber y hy

/-- Direct numbers are found by the rules. -/
theorem result_rules_of_direct (fill : String → Attempt String)
    (h : Direct store near far ts steps x steps') :
    (rules store fill near far ts).result steps = (some (.number x), steps') := by
  have hliteral : literalValue? ts = none := by
    rw [Option.eq_none_iff_forall_ne_some]
    intro v hv
    obtain ⟨⟨t, rfl, hname, hnumber⟩, -⟩ := literalValue?_cases hv
    exact not_undivided_of_single hname hnumber h.2
  have hinterpolated : interpolatedValue fill ts = failure := by
    refine (interpolatedValue_cases fill ts).resolve_left ?_
    rintro ⟨t, rfl, hname, hnumber⟩
    exact not_undivided_of_single hname hnumber h.2
  have hne : ts.isEmpty = false := by
    cases ts with
    | nil =>
      obtain ⟨-, h | h⟩ := h
      · cases h
      · obtain ⟨-, kinds, tree, hkinds, htree, -⟩ := arithmeticValue_eq_some_iff.1 h
        rw [operands_nil] at hkinds
        obtain ⟨rfl, -⟩ := Attempt.result_mapM_nil_iff.1 hkinds
        cases htree
    | cons t ts => rfl
  obtain ⟨hsteps, h⟩ := h
  rw [rules, Attempt.result_bind, Attempt.result_step, if_neg (Nat.not_lt.2 hsteps)]
  simp only
  rw [hne, hliteral, hinterpolated]
  simp only [Bool.false_eq_true, if_false]
  rw [Attempt.result_orElse, Attempt.result_ofOption]
  simp only
  rw [Attempt.result_orElse, Attempt.result_failure]
  simp only
  rw [Attempt.result_orElse]
  rcases h with h | h
  · rw [h]
  · rw [referenceValue_of_none (arithmeticValue_eq_some_iff.1 h).1]
    simp only
    rw [Attempt.result_orElse, h]

theorem undivided_or_joined (h : (referenceValue store near ts <|> arithmeticValue store far ts <|>
      joinedValue near ts).result steps = (some (.number x), steps')) :
    Undivided store near far ts steps x steps' ∨ ∃ before failed,
      (arithmeticValue store far ts).result before = (none, failed) ∧
        (joinedValue near ts).result failed = (some (.number x), steps') := by
  rw [Attempt.result_orElse_eq_some_iff] at h
  rcases h with h | ⟨before, hreference, h⟩
  · exact .inl (.inl h)
  · rw [Attempt.result_orElse_eq_some_iff] at h
    rcases h with h | ⟨failed, harithmetic, h⟩
    · -- a run that is arithmetic is no reference, so no steps were taken in between
      rw [referenceValue_of_none (arithmeticValue_eq_some_iff.1 h).1] at hreference
      obtain ⟨-, rfl⟩ := Prod.mk.inj hreference
      exact .inl (.inr h)
    · exact .inr ⟨before, failed, harithmetic, h⟩

/-- A number that the rules find is direct, or parts are joined after arithmetic has
failed. -/
theorem rules_cases {fill : String → Attempt String}
    (h : (rules store fill near far ts).result steps = (some (.number x), steps')) :
    Direct store near far ts steps x steps' ∨ ∃ before failed,
      (arithmeticValue store far ts).result before = (none, failed) ∧
        (joinedValue near ts).result failed = (some (.number x), steps') := by
  rw [rules, Attempt.result_bind_eq_some_iff] at h
  obtain ⟨_, counted, hstep, h⟩ := h
  rw [Attempt.result_step] at hstep
  obtain ⟨hsteps, rfl⟩ := Prod.mk.inj hstep
  have hlt : steps < stepBudget := by
    by_contra hge
    rw [if_pos (by omega)] at hsteps
    cases hsteps
  split at h
  · obtain ⟨_, _, hempty, -⟩ := Attempt.result_bind_eq_some_iff.1 h
    cases hempty
  · rw [Attempt.result_orElse_eq_some_iff] at h
    rcases h with h | ⟨n, hnone, h⟩
    · obtain ⟨hv, -⟩ := Attempt.result_ofOption_iff.1 h
      exact absurd rfl ((literalValue?_cases hv).2 x)
    · obtain ⟨-, rfl⟩ := Prod.mk.inj hnone
      rw [Attempt.result_orElse_eq_some_iff] at h
      rcases h with h | ⟨n, hinterpolated, h⟩
      · exact absurd h (interpolatedValue_ne_number x)
      · rcases undivided_or_joined h with h | ⟨before, failed, h⟩
        · refine .inl ⟨hlt, ?_⟩
          rcases interpolatedValue_cases fill ts with ⟨t, rfl, hname, hnumber⟩ | hfail
          · exact absurd h (not_undivided_of_single hname hnumber)
          · rw [hfail, Attempt.result_failure] at hinterpolated
            obtain ⟨-, rfl⟩ := Prod.mk.inj hinterpolated
            exact h
        · exact .inr ⟨before, failed, h⟩

end

/-! ## Looking up with more room -/

/-- The value is a number. -/
def Value.IsNumber (v : Value) : Prop := ∃ x, v = .number x

theorem Value.isNumber_of_index? {v : Value} {i : Nat} (h : v.index? = some i) : v.IsNumber := by
  cases v with
  | number x => exact ⟨x, rfl⟩
  | truth b => cases h
  | text s => cases h

/-- A number that one resolver comes to, the other does from fewer steps. -/
def NoWorse (near near' : Resolver) : Prop :=
  ∀ ts, (near ts).CarriesOver Value.IsNumber (near' ts)

section

variable {store : Store} {near near' far far' : Resolver} {ts : List Token}

theorem Reference.carriesOver_value (h : NoWorse near near') (r : Reference) :
    (r.value store near).CarriesOver (fun _ => True) (r.value store near') := by
  cases r with
  | binding name => exact Attempt.carriesOver_ofOption _ _
  | member object field => exact Attempt.carriesOver_ofOption _ _
  | slot array ts =>
    refine (Attempt.carriesOver_ofOption (fun _ => True) (store.array? array)).bind
      (fun slots => ?_) fun _ _ _ _ _ => trivial
    refine (h ts).bind (fun i => Attempt.carriesOver_ofOption _ _) ?_
    -- only a number is an index
    intro i steps v steps' hread
    obtain ⟨n, hn, -⟩ := Option.bind_eq_some_iff.1 (Attempt.result_ofOption_iff.1 hread).1
    exact Value.isNumber_of_index? hn

theorem Operand.carriesOver_kindIn (h : NoWorse far far') (operand : Operand) :
    (operand.kindIn store far).CarriesOver (fun _ => True) (operand.kindIn store far') := by
  cases operand with
  | plain kind => exact Attempt.carriesOver_ofOption _ (some kind)
  | broken => exact Attempt.carriesOver_ofOption _ none
  | ref r =>
    refine (r.carriesOver_value h).bind (fun v => ?_) fun _ _ _ _ _ => trivial
    refine (Attempt.carriesOver_ofOption (fun _ => True) v.number?).bind (fun x => ?_)
      fun _ _ _ _ _ => trivial
    exact Attempt.carriesOver_ofOption _ (some (Kind.number x))

theorem Undivided.carriesOver (hnear : NoWorse near near') (hfar : NoWorse far far')
    {steps steps' : Nat} {x : Float} (h : Undivided store near far ts steps x steps')
    {fewer : Nat} (hfewer : fewer ≤ steps) :
    ∃ fewer' ≤ steps', Undivided store near' far' ts fewer x fewer' := by
  rcases h with h | h
  · obtain ⟨r, hr, h⟩ := referenceValue_eq_some_iff.1 h
    obtain ⟨fewer', hfewer', h'⟩ := r.carriesOver_value hnear _ _ _ h trivial fewer hfewer
    exact ⟨fewer', hfewer', .inl (referenceValue_eq_some_iff.2 ⟨r, hr, h'⟩)⟩
  · obtain ⟨hr, kinds, tree, hkinds, htree, hx⟩ := arithmeticValue_eq_some_iff.1 h
    obtain ⟨fewer', hfewer', hkinds'⟩ := Attempt.carriesOver_mapM
      (fun operand _ => operand.carriesOver_kindIn hfar) _ _ _ hkinds trivial fewer hfewer
    exact ⟨fewer', hfewer', .inr (arithmeticValue_eq_some_iff.2 ⟨hr, kinds, tree, hkinds', htree, hx⟩)⟩

/-! ## Joining makes no numbers -/

/-- The operands of the run can be looked up, and are arithmetic. -/
def Computes (store : Store) (far : Resolver) (ts : List Token) (steps steps' : Nat) : Prop :=
  ∃ kinds tree, ((operands ts).mapM (Operand.kindIn store far)).result steps = (some kinds, steps') ∧
    Tree.ofKinds? kinds = some tree

/-- Its operands, looked up with as much room from fewer steps, are arithmetic of the
same number. -/
theorem Undivided.exists_kinds (hnear : NoWorse near far') (hfar : NoWorse far far')
    {steps steps' : Nat} {x : Float} (h : Undivided store near far ts steps x steps')
    {fewer : Nat} (hfewer : fewer ≤ steps) :
    ∃ fewer' ≤ steps', ∃ kinds tree,
      ((operands ts).mapM (Operand.kindIn store far')).result fewer = (some kinds, fewer') ∧
        Tree.ofKinds? kinds = some tree ∧ tree.eval = x := by
  rcases h with h | h
  · obtain ⟨r, hr, h⟩ := referenceValue_eq_some_iff.1 h
    obtain ⟨fewer', hfewer', h'⟩ := r.carriesOver_value hnear _ _ _ h trivial fewer hfewer
    have hkind : (Operand.kindIn store far' (.ref r)).result fewer =
        (some (.number x), fewer') :=
      Operand.kindIn_ref_eq_some_iff.2 ⟨x, rfl, h'⟩
    refine ⟨fewer', hfewer', [.number x], .number x, ?_, rfl, rfl⟩
    rw [operands_of_ofRun? hr]
    exact Attempt.result_mapM_cons_iff.2 ⟨_, _, [], hkind, rfl, rfl⟩
  · obtain ⟨-, kinds, tree, hkinds, htree, hx⟩ := arithmeticValue_eq_some_iff.1 h
    obtain ⟨fewer', hfewer', hkinds'⟩ := Attempt.carriesOver_mapM
      (fun operand _ => operand.carriesOver_kindIn hfar) _ _ _ hkinds trivial fewer hfewer
    exact ⟨fewer', hfewer', kinds, tree, hkinds', htree, (Value.number.inj hx).symm⟩

theorem Undivided.computes (hnear : NoWorse near far') (hfar : NoWorse far far')
    {steps steps' : Nat} {x : Float} (h : Undivided store near far ts steps x steps')
    {fewer : Nat} (hfewer : fewer ≤ steps) :
    ∃ fewer' ≤ steps', Computes store far' ts fewer fewer' := by
  obtain ⟨fewer', hfewer', kinds, tree, hkinds, htree, -⟩ := h.exists_kinds hnear hfar hfewer
  exact ⟨fewer', hfewer', kinds, tree, hkinds, htree⟩

/-- The other way round, operands that are arithmetic make the run worth its number: if
it is one reference, that is looked up with more room. -/
theorem exists_undivided (hfar : NoWorse far near) {steps steps' : Nat} {kinds : List Kind}
    {tree : Tree}
    (hkinds : ((operands ts).mapM (Operand.kindIn store far)).result steps = (some kinds, steps'))
    (htree : Tree.ofKinds? kinds = some tree) :
    ∃ fewer' ≤ steps', Undivided store near far ts steps tree.eval fewer' := by
  cases hr : Reference.ofRun? ts with
  | none =>
    exact ⟨steps', Nat.le_refl _,
      .inr (arithmeticValue_eq_some_iff.2 ⟨hr, kinds, tree, hkinds, htree, rfl⟩)⟩
  | some r =>
    rw [operands_of_ofRun? hr] at hkinds
    obtain ⟨kind, between, later, hkind, hlater, rfl⟩ := Attempt.result_mapM_cons_iff.1 hkinds
    obtain ⟨rfl, rfl⟩ := Attempt.result_mapM_nil_iff.1 hlater
    obtain ⟨x, rfl, hx⟩ := Operand.kindIn_ref_eq_some_iff.1 hkind
    -- one number has one tree
    obtain rfl : Tree.number x = tree := Option.some.inj htree
    obtain ⟨fewer', hfewer', hx'⟩ := r.carriesOver_value hfar _ _ _ hx trivial _ (Nat.le_refl _)
    exact ⟨fewer', hfewer', .inl (referenceValue_eq_some_iff.2 ⟨r, hr, hx'⟩)⟩

/-- The operands of two runs with a plus sign between them. -/
theorem operands_append_plus {us : List Token} {t : Token} (hts : .broken ∉ operands ts)
    (ht : t.kind = .operator .add) :
    operands (ts ++ t :: us) = operands ts ++ .plain (.operator .add) :: operands us := by
  have hname : t.kind.name? = none := by rw [ht]; rfl
  rw [operands_append hts (quiet_cons (by simp [ht]) (by simp [ht]) us), operands_plain hname, ht]

/-- Two runs that can be computed, with a plus sign between them, make a third. -/
theorem Computes.append {us : List Token} {t : Token} {steps between steps' : Nat}
    (hts : Computes store far ts steps between) (ht : t.kind = .operator .add)
    (hus : Computes store far us between steps') :
    Computes store far (ts ++ t :: us) steps steps' := by
  obtain ⟨ls, left, hls, hleft⟩ := hts
  obtain ⟨rs, right, hrs, hright⟩ := hus
  obtain ⟨tree, htree⟩ := exists_ofKinds?_append hleft
    (show Arith.additive (.operator .add) = some .add from rfl) hright
  refine ⟨_, tree, ?_, htree⟩
  rw [operands_append_plus (broken_not_mem_of_mapM hls) ht, Attempt.result_mapM_append_iff]
  exact ⟨ls, between, _, hls, Attempt.result_mapM_cons_iff.2 ⟨_, between, rs, rfl, hrs, rfl⟩, rfl⟩

/-- A number is joined of numbers alone. -/
theorem isNumber_of_joinValues {values : List Value} {x : Float}
    (h : joinValues values = some (.number x)) : ∀ v ∈ values, v.IsNumber := by
  have hplus {v w : Value} {y : Float} (h : v.plus w = .number y) : v.IsNumber ∧ w.IsNumber := by
    cases v <;> cases w <;> first | exact ⟨⟨_, rfl⟩, ⟨_, rfl⟩⟩ | cases h
  have hfold {v : Value} {vs : List Value} {y : Float} (h : vs.foldl Value.plus v = .number y) :
      v.IsNumber ∧ ∀ w ∈ vs, w.IsNumber := by
    induction vs generalizing v with
    | nil => exact ⟨⟨y, h⟩, nofun⟩
    | cons w vs ih =>
      obtain ⟨⟨z, hz⟩, hvs⟩ := ih h
      obtain ⟨hv, hw⟩ := hplus hz
      exact ⟨hv, List.forall_mem_cons.2 ⟨hw, hvs⟩⟩
  cases values with
  | nil => cases h
  | cons v vs => exact List.forall_mem_cons.2 (hfold (Option.some.inj h))

/-- The numbers that a resolver comes to are direct, with these resolvers below it. -/
def Numbers (store : Store) (near near' far' : Resolver) : Prop :=
  ∀ ts steps x steps', (near ts).result steps = (some (.number x), steps') →
    Direct store near' far' ts steps x steps'

/-- Parts that are all numbers can be computed as one run. -/
theorem computes_of_parts (hnumbers : Numbers store near near' far') (hnear : NoWorse near' far)
    (hfar : NoWorse far' far) {part : List Token} {parts : List (List Token)}
    (hparts : splitAtTop (.operator .add) ts = part :: parts) {values : List Value}
    {steps steps' : Nat} (h : ((part :: parts).mapM near).result steps = (some values, steps'))
    (hvalues : ∀ v ∈ values, v.IsNumber) {fewer : Nat} (hfewer : fewer ≤ steps) :
    ∃ fewer' ≤ steps', Computes store far ts fewer fewer' := by
  induction parts generalizing ts part steps values fewer with
  | nil =>
    obtain ⟨v, between, later, hv, hlater, rfl⟩ := Attempt.result_mapM_cons_iff.1 h
    obtain ⟨x, rfl⟩ := hvalues v List.mem_cons_self
    obtain ⟨-, rfl⟩ := Attempt.result_mapM_nil_iff.1 hlater
    rcases splitFrom_eq_cons hparts with ⟨rfl, -⟩ | ⟨_, rest, -, -, hrest⟩
    · exact (hnumbers ts _ _ _ hv).2.computes hnear hfar (by omega)
    · exact absurd hrest (splitAtTop_ne_nil _ rest)
  | cons next parts ih =>
    obtain ⟨v, between, later, hv, hlater, rfl⟩ := Attempt.result_mapM_cons_iff.1 h
    obtain ⟨⟨x, rfl⟩, hlaters⟩ := List.forall_mem_cons.1 hvalues
    rcases splitFrom_eq_cons hparts with ⟨-, hnil⟩ | ⟨t, rest, rfl, ht, hrest⟩
    · cases hnil
    · obtain ⟨n, hn, hpart⟩ := (hnumbers part _ _ _ hv).2.computes hnear hfar
        (show fewer ≤ steps + 1 by omega)
      obtain ⟨fewer', hfewer', hlast⟩ := ih hrest hlater hlaters hn
      exact ⟨fewer', hfewer', hpart.append ht hlast⟩

theorem joinedValue_eq_some_iff {v : Value} {steps steps' : Nat} :
    (joinedValue near ts).result steps = (some v, steps') ↔
      2 ≤ (splitAtTop (.operator .add) ts).length ∧ ∃ values,
        ((splitAtTop (.operator .add) ts).mapM near).result steps = (some values, steps') ∧
          joinValues values = some v := by
  unfold joinedValue
  simp only
  split
  · next hlength =>
    constructor
    · intro h
      obtain ⟨_, _, hfailure, -⟩ := Attempt.result_bind_eq_some_iff.1 h
      cases hfailure
    · rintro ⟨hle, -⟩
      exact absurd hlength (Nat.not_lt.2 hle)
  · next hlength =>
    simp only [Attempt.result_bind_eq_some_iff, Attempt.result_ofOption_iff]
    constructor
    · rintro ⟨values, _, hvalues, hjoin, rfl⟩
      exact ⟨Nat.not_lt.1 hlength, values, hvalues, hjoin⟩
    · rintro ⟨-, values, hvalues, hjoin⟩
      exact ⟨values, steps', hvalues, hjoin, rfl⟩

/-- Where arithmetic has failed, joining makes no number. -/
theorem joined_ne_number (hnumbers : Numbers store near near' far') (hnear : NoWorse near' far)
    (hfar : NoWorse far' far) (hgrows : ∀ ts, (far ts).Grows) {steps failed steps' : Nat}
    (harithmetic : (arithmeticValue store far ts).result steps = (none, failed)) (x : Float) :
    (joinedValue near ts).result failed ≠ (some (.number x), steps') := by
  intro h
  obtain ⟨hlength, values, hvalues, hjoin⟩ := joinedValue_eq_some_iff.1 h
  have hsteps : steps ≤ failed := (grows_arithmeticValue hgrows ts).le harithmetic
  obtain ⟨part, parts, hparts⟩ := List.exists_cons_of_ne_nil
    (splitAtTop_ne_nil (.operator .add) ts)
  rw [hparts] at hvalues hlength
  have hall := isNumber_of_joinValues hjoin
  obtain ⟨n, -, kinds, tree, hkinds, htree⟩ :=
    computes_of_parts hnumbers hnear hfar hparts hvalues hall hsteps
  -- with a plus sign behind its first part, the run is no reference
  have hnone : Reference.ofRun? ts = none := by
    rw [Option.eq_none_iff_forall_ne_some]
    intro r hr
    obtain ⟨v, between, later, hv, -, rfl⟩ := Attempt.result_mapM_cons_iff.1 hvalues
    obtain ⟨y, rfl⟩ := hall v List.mem_cons_self
    obtain ⟨_, -, first, _, hfirst, -⟩ :=
      (hnumbers part _ _ _ hv).2.computes hnear hfar (Nat.le_refl _)
    rcases splitFrom_eq_cons hparts with ⟨-, rfl⟩ | ⟨t, rest, rfl, ht, -⟩
    · exact absurd hlength (by simp)
    · have hoperands := operands_of_ofRun? hr
      rw [operands_append_plus (broken_not_mem_of_mapM hfirst) ht] at hoperands
      have : Operand.plain (.operator .add) ∈ [Operand.ref r] := by
        rw [← hoperands]
        simp
      simp at this
  have := arithmeticValue_eq_some_iff.2 ⟨hnone, kinds, tree, hkinds, htree, rfl⟩
  rw [harithmetic] at this
  cases this

end

/-! ## All numbers are direct -/

theorem resolveIn_succ (store : Store) (fill : String → Attempt String) (room : Nat) :
    resolveIn store fill (room + 1) =
      rules store fill (resolveIn store fill room) (resolveIn store fill (room - 1)) := by
  cases room <;> rfl

theorem resolve_succ (store : Store) (level room : Nat) :
    resolve store level (room + 1) =
      rules store (fillAt store level) (resolve store level room)
        (resolve store level (room - 1)) := by
  simp only [resolve_eq, resolveIn_succ]

theorem resolve_zero_ne {store : Store} {level steps steps' : Nat} {ts : List Token} {v : Value} :
    (resolve store level 0 ts).result steps ≠ (some v, steps') := by
  intro h
  rw [resolve_eq] at h
  obtain ⟨_, _, -, hfailure⟩ := Attempt.result_bind_eq_some_iff.1 h
  cases hfailure

/-- With any room, numbers are direct, and with more room there are no fewer. -/
theorem numbers_of_resolve (store : Store) (level room : Nat) :
    Numbers store (resolve store level room) (resolve store level (room - 1))
        (resolve store level (room - 2)) ∧
      ∀ more, room ≤ more → NoWorse (resolve store level room) (resolve store level more) := by
  -- references need the numbers one and two levels further down
  induction room using Nat.strong_induction_on with
  | h room ih =>
    cases room with
    | zero => exact ⟨fun _ _ _ _ h => absurd h resolve_zero_ne,
        fun _ _ _ _ _ _ h => absurd h resolve_zero_ne⟩
    | succ room =>
      have hnumbers : Numbers store (resolve store level (room + 1)) (resolve store level room)
          (resolve store level (room - 1)) := by
        intro ts steps x steps' h
        rw [resolve_succ] at h
        rcases rules_cases h with h | ⟨before, failed, harithmetic, hjoined⟩
        · exact h
        · have hnear := (ih (room - 1) (by omega)).2 (room - 1) (Nat.le_refl _)
          have hfar := (ih (room - 2) (by omega)).2 (room - 1) (by omega)
          exact absurd hjoined (joined_ne_number (ih room (by omega)).1 hnear hfar
            (grows_resolve store level (room - 1)) harithmetic x)
      refine ⟨hnumbers, ?_⟩
      intro more hmore ts steps v steps' h ⟨x, hx⟩ fewer hfewer
      obtain ⟨more, rfl⟩ : ∃ n, more = n + 1 := Nat.exists_eq_add_one.2 (by omega)
      subst hx
      obtain ⟨hsteps, hundivided⟩ := hnumbers ts steps x steps' h
      have hnear := (ih room (by omega)).2 more (by omega)
      have hfar := (ih (room - 1) (by omega)).2 (more - 1) (by omega)
      obtain ⟨fewer', hfewer', hmore'⟩ :=
        hundivided.carriesOver hnear hfar (Nat.succ_le_succ hfewer)
      refine ⟨fewer', hfewer', ?_⟩
      rw [resolve_succ]
      exact result_rules_of_direct _ ⟨by omega, hmore'⟩

theorem noWorse_resolve {store : Store} {level room more : Nat} (h : room ≤ more) :
    NoWorse (resolve store level room) (resolve store level more) :=
  (numbers_of_resolve store level room).2 more h

end SnippetConsole
