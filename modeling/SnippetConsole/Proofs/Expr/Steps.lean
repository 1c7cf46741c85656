import SnippetConsole.Proofs.Expr.Evaluation

/-!
# The steps of an attempt

Steps are counted and never given back, so an attempt that starts with fewer steps is
at no disadvantage.

* `Attempt.Grows` — steps are only added; `grows_resolve` says so of resolving.
* `Attempt.CarriesOver` — what one attempt comes to, another one does from fewer steps.
-/

namespace SnippetConsole

namespace Attempt

variable {α β : Type}

/-! ## Values of composed attempts -/

theorem result_failure (steps : Nat) : (failure : Attempt α).result steps = (none, steps) := rfl

theorem result_ofOption_iff {o : Option α} {x : α} {steps steps' : Nat} :
    (ofOption o).result steps = (some x, steps') ↔ o = some x ∧ steps = steps' := by
  rw [result_ofOption, Prod.mk.injEq]

theorem result_pure_iff {x y : α} {steps steps' : Nat} :
    (pure x : Attempt α).result steps = (some y, steps') ↔ x = y ∧ steps = steps' :=
  result_ofOption_iff.trans (and_congr_left' Option.some_inj)

theorem result_bind_eq_some_iff {a : Attempt α} {f : α → Attempt β} {steps steps' : Nat} {y : β} :
    (a >>= f).result steps = (some y, steps') ↔
      ∃ x between, a.result steps = (some x, between) ∧
        (f x).result between = (some y, steps') := by
  rw [result_bind]
  rcases a.result steps with ⟨_ | x, between⟩
  · simp
  · constructor
    · intro h
      exact ⟨x, between, rfl, h⟩
    · rintro ⟨_, _, heq, h⟩
      cases heq
      exact h

theorem result_orElse_eq_some_iff {a b : Attempt α} {steps steps' : Nat} {x : α} :
    (a <|> b).result steps = (some x, steps') ↔
      a.result steps = (some x, steps') ∨
        ∃ failed, a.result steps = (none, failed) ∧ b.result failed = (some x, steps') := by
  rw [result_orElse]
  rcases a.result steps with ⟨_ | y, between⟩
  · simp
  · simp

theorem result_mapM_nil_iff {f : α → Attempt β} {ys : List β} {steps steps' : Nat} :
    (([] : List α).mapM f).result steps = (some ys, steps') ↔ [] = ys ∧ steps = steps' :=
  result_pure_iff

theorem result_mapM_cons_iff {f : α → Attempt β} {x : α} {xs : List α} {steps steps' : Nat}
    {ys : List β} :
    ((x :: xs).mapM f).result steps = (some ys, steps') ↔
      ∃ y between later, (f x).result steps = (some y, between) ∧
        (xs.mapM f).result between = (some later, steps') ∧ ys = y :: later := by
  rw [List.mapM_cons]
  simp only [result_bind_eq_some_iff, result_pure_iff]
  constructor
  · rintro ⟨y, between, hy, later, _, hlater, rfl, rfl⟩
    exact ⟨y, between, later, hy, hlater, rfl⟩
  · rintro ⟨y, between, later, hy, hlater, rfl⟩
    exact ⟨y, between, hy, later, steps', hlater, rfl, rfl⟩

theorem result_mapM_append_iff {f : α → Attempt β} {xs xs' : List α} {steps steps' : Nat}
    {ys : List β} :
    ((xs ++ xs').mapM f).result steps = (some ys, steps') ↔
      ∃ earlier between later, (xs.mapM f).result steps = (some earlier, between) ∧
        (xs'.mapM f).result between = (some later, steps') ∧ ys = earlier ++ later := by
  induction xs generalizing steps ys with
  | nil =>
    simp only [List.nil_append, result_mapM_nil_iff]
    constructor
    · intro h
      exact ⟨[], steps, ys, ⟨rfl, rfl⟩, h, rfl⟩
    · rintro ⟨_, _, later, ⟨rfl, rfl⟩, h, rfl⟩
      exact h
  | cons x xs ih =>
    simp only [List.cons_append, result_mapM_cons_iff, ih]
    constructor
    · rintro ⟨y, between, _, hy, ⟨earlier, n, later, hearlier, hlater, rfl⟩, rfl⟩
      exact ⟨y :: earlier, n, later, ⟨y, between, earlier, hy, hearlier, rfl⟩, hlater, rfl⟩
    · rintro ⟨_, n, later, ⟨y, between, earlier, hy, hearlier, rfl⟩, hlater, rfl⟩
      exact ⟨y, between, earlier ++ later, hy, ⟨earlier, n, later, hearlier, hlater, rfl⟩, rfl⟩

theorem result_mapM_append_of_none {f : α → Attempt β} {xs : List α} {steps failed : Nat}
    (h : (xs.mapM f).result steps = (none, failed)) (xs' : List α) :
    ((xs ++ xs').mapM f).result steps = (none, failed) := by
  rw [List.mapM_append, result_bind, h]

theorem result_mapM_append_of_some {f : α → Attempt β} {xs : List α} {steps between : Nat}
    {ys : List β} (h : (xs.mapM f).result steps = (some ys, between)) (xs' : List α) :
    ((xs ++ xs').mapM f).result steps =
      (((xs'.mapM f).result between).1.map (ys ++ ·), ((xs'.mapM f).result between).2) := by
  rw [List.mapM_append, result_bind, h]
  simp only
  rw [result_bind]
  rcases (xs'.mapM f).result between with ⟨_ | ys', steps'⟩ <;> rfl

/-! ## Steps are only added -/

/-- The attempt takes no steps back, whether it succeeds or fails. -/
def Grows (a : Attempt α) : Prop := ∀ steps, steps ≤ (a.result steps).2

theorem Grows.le {a : Attempt α} (h : a.Grows) {o : Option α} {steps steps' : Nat}
    (hresult : a.result steps = (o, steps')) : steps ≤ steps' := by
  have hsteps := h steps
  rwa [hresult] at hsteps

theorem grows_ofOption (o : Option α) : (ofOption o).Grows := fun _ => Nat.le_refl _

theorem grows_step : step.Grows := by
  intro steps
  rw [result_step]
  exact Nat.le_succ steps

theorem Grows.bind {a : Attempt α} {f : α → Attempt β} (ha : a.Grows) (hf : ∀ x, (f x).Grows) :
    (a >>= f).Grows := by
  intro steps
  rw [result_bind]
  rcases hresult : a.result steps with ⟨_ | x, between⟩
  · exact ha.le hresult
  · exact Nat.le_trans (ha.le hresult) (hf x between)

theorem Grows.orElse {a b : Attempt α} (ha : a.Grows) (hb : b.Grows) : (a <|> b).Grows := by
  intro steps
  rw [result_orElse]
  rcases hresult : a.result steps with ⟨_ | x, between⟩
  · exact Nat.le_trans (ha.le hresult) (hb between)
  · exact ha.le hresult

theorem grows_mapM {f : α → Attempt β} (hf : ∀ x, (f x).Grows) (xs : List α) :
    (xs.mapM f).Grows := by
  induction xs with
  | nil => exact grows_ofOption (some [])
  | cons x xs ih =>
    rw [List.mapM_cons]
    exact (hf x).bind fun y => ih.bind fun ys => grows_ofOption (some (y :: ys))

/-! ## Starting with fewer steps -/

/-- Where `a` comes to a value of `P`, so does `b`: from fewer steps, with fewer. -/
def CarriesOver (P : α → Prop) (a b : Attempt α) : Prop :=
  ∀ steps x steps', a.result steps = (some x, steps') → P x →
    ∀ fewer ≤ steps, ∃ fewer' ≤ steps', b.result fewer = (some x, fewer')

theorem carriesOver_ofOption (P : α → Prop) (o : Option α) :
    CarriesOver P (ofOption o) (ofOption o) := by
  intro steps x steps' h _ fewer hfewer
  obtain ⟨rfl, rfl⟩ := result_ofOption_iff.1 h
  exact ⟨fewer, hfewer, rfl⟩

theorem CarriesOver.bind {P : α → Prop} {Q : β → Prop} {a b : Attempt α} {f g : α → Attempt β}
    (ha : CarriesOver P a b) (hf : ∀ x, CarriesOver Q (f x) (g x))
    (hP : ∀ x steps y steps', (f x).result steps = (some y, steps') → P x) :
    CarriesOver Q (a >>= f) (b >>= g) := by
  intro steps y steps' h hy fewer hfewer
  obtain ⟨x, between, hx, hfx⟩ := result_bind_eq_some_iff.1 h
  obtain ⟨between', hbetween, hx'⟩ := ha steps x between hx (hP x _ _ _ hfx) fewer hfewer
  obtain ⟨fewer', hfewer', hgx⟩ := hf x between y steps' hfx hy between' hbetween
  exact ⟨fewer', hfewer', result_bind_eq_some_iff.2 ⟨x, between', hx', hgx⟩⟩

theorem carriesOver_mapM {f g : α → Attempt β} {xs : List α}
    (h : ∀ x ∈ xs, CarriesOver (fun _ => True) (f x) (g x)) :
    CarriesOver (fun _ => True) (xs.mapM f) (xs.mapM g) := by
  induction xs with
  | nil => exact carriesOver_ofOption _ (some [])
  | cons x xs ih =>
    obtain ⟨hx, hxs⟩ := List.forall_mem_cons.1 h
    rw [List.mapM_cons, List.mapM_cons]
    refine hx.bind (fun y => ?_) fun _ _ _ _ _ => trivial
    refine (ih hxs).bind (fun ys => ?_) fun _ _ _ _ _ => trivial
    exact carriesOver_ofOption _ (some (y :: ys))

end Attempt

/-! ## Resolving adds steps -/

section

variable {store : Store} {near far : Resolver}

theorem Reference.grows_value (hnear : ∀ ts, (near ts).Grows) (r : Reference) :
    (r.value store near).Grows := by
  cases r with
  | binding name => exact Attempt.grows_ofOption _
  | member object field => exact Attempt.grows_ofOption _
  | slot array ts =>
    refine (Attempt.grows_ofOption (store.array? array)).bind fun slots => ?_
    exact (hnear ts).bind fun i => Attempt.grows_ofOption _

theorem grows_referenceValue (hnear : ∀ ts, (near ts).Grows) (ts : List Token) :
    (referenceValue store near ts).Grows :=
  (Attempt.grows_ofOption (Reference.ofRun? ts)).bind fun r => r.grows_value hnear

theorem Operand.grows_kindIn (hfar : ∀ ts, (far ts).Grows) (operand : Operand) :
    (operand.kindIn store far).Grows := by
  cases operand with
  | plain kind => exact Attempt.grows_ofOption (some kind)
  | broken => exact Attempt.grows_ofOption none
  | ref r =>
    refine (r.grows_value hfar).bind fun value => ?_
    exact (Attempt.grows_ofOption value.number?).bind fun x =>
      Attempt.grows_ofOption (some (Kind.number x))

theorem grows_arithmeticValue (hfar : ∀ ts, (far ts).Grows) (ts : List Token) :
    (arithmeticValue store far ts).Grows := by
  unfold arithmeticValue
  split
  · exact Attempt.grows_ofOption none
  · refine (Attempt.grows_mapM (Operand.grows_kindIn hfar) _).bind fun kinds => ?_
    exact (Attempt.grows_ofOption (Tree.ofKinds? kinds)).bind fun tree =>
      Attempt.grows_ofOption (some (Value.number tree.eval))

theorem grows_joinedValue (hnear : ∀ ts, (near ts).Grows) (ts : List Token) :
    (joinedValue near ts).Grows := by
  have hjoin : ((splitAtTop (.operator .add) ts).mapM near >>= fun values =>
      Attempt.ofOption (joinValues values)).Grows :=
    (Attempt.grows_mapM hnear _).bind fun values => Attempt.grows_ofOption _
  unfold joinedValue
  simp only
  split
  · exact (Attempt.grows_ofOption none).bind fun _ => hjoin
  · exact hjoin

theorem Piece.grows_fill (hnear : ∀ ts, (near ts).Grows) (piece : Piece) :
    (piece.fill store near).Grows := by
  cases piece with
  | char c => exact Attempt.grows_ofOption (some [c])
  | hole inner =>
    have hhole : (holeValue store near inner).Grows := by
      unfold holeValue
      split
      · exact grows_referenceValue hnear _
      · exact Attempt.grows_ofOption none
    exact (hhole.bind fun value => Attempt.grows_ofOption (some value.shown.toList)).orElse
      (Attempt.grows_ofOption (some (Piece.hole inner).source))

theorem grows_interpolate (hnear : ∀ ts, (near ts).Grows) (raw : String) :
    (interpolate store near raw).Grows :=
  (Attempt.grows_mapM (Piece.grows_fill hnear) _).bind fun filled =>
    Attempt.grows_ofOption (some (String.ofList filled.flatten))

theorem grows_interpolatedValue {fill : String → Attempt String} (hfill : ∀ raw, (fill raw).Grows)
    (ts : List Token) : (interpolatedValue fill ts).Grows := by
  unfold interpolatedValue
  split
  · exact (hfill _).bind fun text => Attempt.grows_ofOption (some (Value.text text))
  · exact Attempt.grows_ofOption none

theorem grows_rules {fill : String → Attempt String} (hfill : ∀ raw, (fill raw).Grows)
    (hnear : ∀ ts, (near ts).Grows) (hfar : ∀ ts, (far ts).Grows) (ts : List Token) :
    (rules store fill near far ts).Grows := by
  have hrules : (.ofOption (literalValue? ts) <|> interpolatedValue fill ts <|>
      referenceValue store near ts <|> arithmeticValue store far ts <|>
        joinedValue near ts : Attempt Value).Grows :=
    (Attempt.grows_ofOption (literalValue? ts)).orElse
      ((grows_interpolatedValue hfill ts).orElse ((grows_referenceValue hnear ts).orElse
        ((grows_arithmeticValue hfar ts).orElse (grows_joinedValue hnear ts))))
  unfold rules
  refine Attempt.grows_step.bind fun _ => ?_
  split
  · exact (Attempt.grows_ofOption none).bind fun _ => hrules
  · exact hrules

end

theorem grows_resolve (store : Store) (level room : Nat) (ts : List Token) :
    (resolve store level room ts).Grows :=
  resolve_induction (P := fun r => ∀ ts, (r ts).Grows)
    (fun _ _ => Attempt.grows_step.bind fun _ => Attempt.grows_ofOption none)
    (fun _ _ _ => grows_rules) (fun _ => Attempt.grows_ofOption (some _))
    (fun _ => grows_interpolate) level room ts

end SnippetConsole
