import Mathlib.Data.Nat.Init
import SnippetConsole.Expr.Evaluation

/-!
# What an attempt comes to

The outcome of an attempt and its steps follow how the attempt is put together, so
the rules are looked at one after the other without opening the monad.

* `Attempt.result_bind`, `Attempt.result_orElse` — attempts one after the other, and
  one instead of the other.
* `evaluate?_of_literal` — a literal is worth its raw text in every store.
* `Attempt.Ensures` — what holds of a value whenever there is one.
* `resolve_related` — what the rules keep of the resolvers they call holds at every
  level and with every room.
-/

namespace SnippetConsole

namespace Attempt

variable {α β : Type}

theorem result_ofOption (a : Option α) (steps : Nat) : (ofOption a).result steps = (a, steps) :=
  rfl

/-- A failure keeps the steps that led to it. -/
theorem result_bind (a : Attempt α) (f : α → Attempt β) (steps : Nat) :
    (a >>= f).result steps =
      match a.result steps with
      | (some x, steps') => (f x).result steps'
      | (none, steps') => (none, steps') := by
  simp only [result, OptionT.run_bind, Option.elimM, StateT.run_bind, Id.run_bind]
  rcases Id.run (StateT.run a.run steps) with ⟨_ | x, steps'⟩ <;> rfl

theorem result_orElse (a b : Attempt α) (steps : Nat) :
    (a <|> b).result steps =
      match a.result steps with
      | (some x, steps') => (some x, steps')
      | (none, steps') => b.result steps' := by
  simp only [result, OptionT.run_orElse, Option.elimM, StateT.run_bind, Id.run_bind]
  rcases Id.run (StateT.run a.run steps) with ⟨_ | x, steps'⟩ <;> rfl

theorem result_step (steps : Nat) :
    step.result steps = (if stepBudget < steps + 1 then none else some (), steps + 1) := by
  have hcount : (modify (· + 1) : Attempt Unit).result steps = (some (), steps + 1) := rfl
  have hget (n : Nat) : (get : Attempt Nat).result n = (some n, n) := rfl
  rw [step, result_bind, hcount]
  simp only
  rw [result_bind, hget]
  simp only
  split <;> rfl

theorem mapM_congr {f g : α → Attempt β} {xs : List α} (h : ∀ x ∈ xs, f x = g x) :
    xs.mapM f = xs.mapM g := by
  induction xs with
  | nil => rfl
  | cons x xs ih =>
    rw [List.mapM_cons, List.mapM_cons, h x List.mem_cons_self,
      ih fun y hy => h y (List.mem_cons_of_mem x hy)]

/-- What the attempt comes to, if it comes to anything, satisfies `P`. -/
def Ensures (a : Attempt α) (P : α → Prop) : Prop :=
  ∀ steps steps' x, a.result steps = (some x, steps') → P x

section

variable {P : α → Prop} {Q : β → Prop} {a b : Attempt α}

theorem ensures_true (a : Attempt α) : a.Ensures fun _ => True := fun _ _ _ _ => trivial

theorem ensures_ofOption {o : Option α} (h : ∀ x, o = some x → P x) : (ofOption o).Ensures P := by
  intro steps steps' x hx
  rw [result_ofOption, Prod.mk.injEq] at hx
  exact h x hx.1

theorem ensures_pure {x : α} (h : P x) : (pure x : Attempt α).Ensures P :=
  ensures_ofOption fun _ hx => Option.some.inj hx ▸ h

theorem ensures_failure : (failure : Attempt α).Ensures P :=
  ensures_ofOption fun _ hx => nomatch hx

theorem Ensures.bind {f : α → Attempt β} (ha : a.Ensures P) (hf : ∀ x, P x → (f x).Ensures Q) :
    (a >>= f).Ensures Q := by
  intro steps steps' y hy
  rw [result_bind] at hy
  cases hresult : a.result steps with
  | mk x? between =>
    cases x? with
    | none =>
      rw [hresult] at hy
      cases hy
    | some x =>
      rw [hresult] at hy
      exact hf x (ha _ _ x hresult) _ _ y hy

theorem ensures_failure_bind (f : α → Attempt β) : (failure >>= f).Ensures Q :=
  Ensures.bind (P := fun _ => False) ensures_failure fun _ hfalse => hfalse.elim

theorem Ensures.orElse (ha : a.Ensures P) (hb : b.Ensures P) : (a <|> b).Ensures P := by
  intro steps steps' x hx
  rw [result_orElse] at hx
  cases hresult : a.result steps with
  | mk x? between =>
    cases x? with
    | none =>
      rw [hresult] at hx
      exact hb _ _ x hx
    | some y =>
      rw [hresult] at hx
      cases hx
      exact ha _ _ x hresult

theorem ensures_mapM {f : α → Attempt β} {xs : List α} (h : ∀ x ∈ xs, (f x).Ensures Q) :
    (xs.mapM f).Ensures fun ys => ∀ y ∈ ys, Q y := by
  induction xs with
  | nil => exact ensures_pure fun y hy => absurd hy List.not_mem_nil
  | cons x xs ih =>
    rw [List.mapM_cons]
    refine (h x List.mem_cons_self).bind fun y hy => ?_
    refine (ih fun z hz => h z (List.mem_cons_of_mem x hz)).bind fun ys hys => ?_
    exact ensures_pure (List.forall_mem_cons.2 ⟨hy, hys⟩)

end

end Attempt

/-! ## Literals -/

/-- The first rule that applies to a literal is the first of all. -/
theorem result_rules_of_literal {ts : List Token} {v : Value} {steps : Nat}
    (h : literalValue? ts = some v) (hsteps : steps < stepBudget) (store : Store)
    (fill : String → Attempt String) (near far : Resolver) :
    (rules store fill near far ts).result steps = (some v, steps + 1) := by
  have hne : ts.isEmpty = false := by
    cases ts with
    | nil => cases h
    | cons t ts => rfl
  rw [rules, Attempt.result_bind, Attempt.result_step, if_neg (Nat.not_lt.2 hsteps)]
  simp only
  rw [hne, h]
  simp only [Bool.false_eq_true, if_false]
  rw [Attempt.result_orElse, Attempt.result_ofOption]

/-- A text that is read as a literal is worth the literal, whatever the store holds. -/
theorem evaluate?_of_literal {text : String} {ts : List Token} {v : Value}
    (hlex : lex text = .ok ts) (h : literalValue? ts = some v) (store : Store) :
    evaluate? store text = some v := by
  have hrules (level : Nat) : ∃ fill near far,
      resolve store level (deepest + 1) = rules store fill near far := by
    cases level <;> exact ⟨_, _, _, rfl⟩
  obtain ⟨fill, near, far, hresolve⟩ := hrules text.length
  rw [evaluate?, attempt, hlex]
  simp only
  rw [hresolve, result_rules_of_literal h (by decide)]

/-! ## Induction over levels and room -/

section

variable {s s' : Store} {Fill : (String → Attempt String) → (String → Attempt String) → Prop}
  {Rel : Resolver → Resolver → Prop}

theorem resolveIn_related {fill fill' : String → Attempt String}
    (hnone : Rel (resolveIn s fill 0) (resolveIn s' fill' 0))
    (hrules : ∀ near near' far far', Rel near near' → Rel far far' →
      Rel (rules s fill near far) (rules s' fill' near' far')) (room : Nat) :
    Rel (resolveIn s fill room) (resolveIn s' fill' room) := by
  induction room using Nat.twoStepInduction with
  | zero => exact hnone
  | one => exact hrules _ _ _ _ hnone hnone
  | more room far near => exact hrules _ _ _ _ near far

/-- Resolvers in two stores are related at every level and with every room if their
rules are, given that the resolvers they call are. -/
theorem resolve_related (hnone : ∀ fill fill', Rel (resolveIn s fill 0) (resolveIn s' fill' 0))
    (hrules : ∀ fill fill' near near' far far', Fill fill fill' → Rel near near' →
      Rel far far' → Rel (rules s fill near far) (rules s' fill' near' far'))
    (hpure : Fill pure pure)
    (hfill : ∀ near near', Rel near near' → Fill (interpolate s near) (interpolate s' near'))
    (level room : Nat) : Rel (resolve s level room) (resolve s' level room) := by
  induction level generalizing room with
  | zero => exact resolveIn_related (hnone _ _) (fun _ _ _ _ => hrules _ _ _ _ _ _ hpure) room
  | succ level ih =>
    have hlevel := hfill _ _ (ih (deepest - 1))
    exact resolveIn_related (hnone _ _) (fun _ _ _ _ => hrules _ _ _ _ _ _ hlevel) room

end

/-- The same for what holds of the resolvers in one store. -/
theorem resolve_induction {s : Store} {Fill : (String → Attempt String) → Prop}
    {P : Resolver → Prop} (hnone : ∀ fill, P (resolveIn s fill 0))
    (hrules : ∀ fill near far, Fill fill → P near → P far → P (rules s fill near far))
    (hpure : Fill pure) (hfill : ∀ near, P near → Fill (interpolate s near))
    (level room : Nat) : P (resolve s level room) :=
  @resolve_related s s (fun fill _ => Fill fill) (fun r _ => P r) (fun fill _ => hnone fill)
    (fun fill _ near _ far _ => hrules fill near far) hpure (fun near _ => hfill near) level room

end SnippetConsole
