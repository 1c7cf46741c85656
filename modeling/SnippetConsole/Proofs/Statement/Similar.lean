import Mathlib.Data.List.Forall2
import SnippetConsole.Proofs.Token.Kinds
import SnippetConsole.Statement.Shape

/-!
# Statements of the same shape

Which statement a run makes depends on the kinds of its tokens alone; only the
texts of its expressions come from the line. Two runs with the same kinds make
statements that differ in their expressions at most, and each expression is the
text of a balanced run within the run.

* `Statement.Similar` — the same statement but for its expressions.
* `Agree` — runs with the same kinds, whose balanced parts are related.
-/

namespace SnippetConsole

/-! ## Similar statements -/

/-- Initializers whose expressions are related one by one. -/
inductive ArrayInit.Similar (R : Expr → Expr → Prop) : ArrayInit → ArrayInit → Prop
  | sized {size size' : Expr} : R size size' → Similar R (.sized size) (.sized size')
  | items {items items' : List Expr} : List.Forall₂ R items items' →
      Similar R (.items items) (.items items')

/-- Statements that are the same but for related expressions. -/
inductive Statement.Similar (R : Expr → Expr → Prop) : Statement → Statement → Prop
  | print {expr expr' : Option Expr} : Option.Rel R expr expr' →
      Similar R (.print expr) (.print expr')
  | printSlot {array : String} {index : Nat} :
      Similar R (.printSlot array index) (.printSlot array index)
  | declare {name : String} {expr expr' : Expr} : R expr expr' →
      Similar R (.declare name expr) (.declare name expr')
  | assign {name : String} {expr expr' : Expr} : R expr expr' →
      Similar R (.assign name expr) (.assign name expr')
  | update {name : String} {op : Operator} {expr expr' : Expr} : R expr expr' →
      Similar R (.update name op expr) (.update name op expr')
  | step {name : String} {step : Step} : Similar R (.step name step) (.step name step)
  | construct {name className : String} :
      Similar R (.construct name className) (.construct name className)
  | setField {object field : String} {expr expr' : Expr} : R expr expr' →
      Similar R (.setField object field expr) (.setField object field expr')
  | call {object method : String} : Similar R (.call object method) (.call object method)
  | makeArray {name : String} {init init' : ArrayInit} : init.Similar R init' →
      Similar R (.makeArray name init) (.makeArray name init')
  | setSlot {array : String} {index index' expr expr' : Expr} : R index index' → R expr expr' →
      Similar R (.setSlot array index expr) (.setSlot array index' expr')
  | unrecognized : Similar R .unrecognized .unrecognized

theorem ArrayInit.Similar.eq {init init' : ArrayInit} (h : init.Similar Eq init') :
    init = init' := by
  cases h with
  | sized h => rw [h]
  | items h =>
    rw [List.forall₂_eq_eq_eq] at h
    rw [h]

theorem Statement.Similar.eq {s s' : Statement} (h : s.Similar Eq s') : s = s' := by
  cases h with
  | print h =>
    cases h with
    | some h => rw [h]
    | none => rfl
  | declare h | assign h | update h | setField h => rw [h]
  | makeArray h => rw [h.eq]
  | setSlot hi he => rw [hi, he]
  | printSlot | step | construct | call | unrecognized => rfl

/-- The expressions of an initializer. -/
def ArrayInit.exprs : ArrayInit → List Expr
  | .sized size => [size]
  | .items list => list

/-- The expressions of a statement. -/
def Statement.exprs : Statement → List Expr
  | .print expr => expr.toList
  | .declare _ expr => [expr]
  | .assign _ expr => [expr]
  | .update _ _ expr => [expr]
  | .setField _ _ expr => [expr]
  | .makeArray _ init => init.exprs
  | .setSlot _ index expr => [index, expr]
  | .printSlot _ _ | .step _ _ | .construct _ _ | .call _ _ | .unrecognized => []

theorem ArrayInit.Similar.exprs {R : Expr → Expr → Prop} {init init' : ArrayInit}
    (h : init.Similar R init') : List.Forall₂ R init.exprs init'.exprs := by
  cases h with
  | sized h => exact .cons h .nil
  | items h => exact h

theorem Statement.Similar.exprs {R : Expr → Expr → Prop} {s s' : Statement}
    (h : s.Similar R s') : List.Forall₂ R s.exprs s'.exprs := by
  cases h with
  | print h =>
    cases h with
    | some h => exact .cons h .nil
    | none => exact .nil
  | declare h | assign h | update h | setField h => exact .cons h .nil
  | makeArray h => exact h.exprs
  | setSlot hi he => exact .cons hi (.cons he .nil)
  | printSlot | step | construct | call | unrecognized => exact .nil

/-! ## Runs that agree -/

section

variable {α : Type} {f g : α → Token} {xs : List α} {line line' : String}
  {R : Expr → Expr → Prop}

/-- Two runs, each of its line, have the same kinds, and their balanced parts are
related as expressions. -/
structure Agree (line line' : String) (R : Expr → Expr → Prop) (f g : α → Token)
    (xs : List α) : Prop where
  kinds : SameKinds f g xs
  exprs : ∀ ys, ys <:+: xs → ys ≠ [] → balanced (ys.map f) = true →
    R (.of (sourceText line (ys.map f))) (.of (sourceText line' (ys.map g)))

namespace Agree

theorem symm (h : Agree line line' R f g xs) : Agree line' line (fun a b => R b a) g f xs where
  kinds := h.kinds.symm
  exprs ys hys hne hb := by
    have hf := balanced_map (h.kinds.sublist hys.sublist)
    exact h.exprs ys hys hne (hf ▸ hb)

theorem isInfix {ys : List α} (h : Agree line line' R f g xs) (hys : ys <:+: xs) :
    Agree line line' R f g ys where
  kinds := h.kinds.sublist hys.sublist
  exprs zs hzs := h.exprs zs (hzs.trans hys)

theorem cons {k : Kind} {s : Text.Span} {ts : List Token} (h : Agree line line' R f g xs)
    (he : xs.map f = ⟨k, s⟩ :: ts) :
    ∃ s' ys, ys.map f = ts ∧ xs.map g = ⟨k, s'⟩ :: ys.map g ∧ Agree line line' R f g ys := by
  obtain ⟨x, ys, rfl, hx, rfl⟩ := List.map_eq_cons_iff.1 he
  have hk : (g x).kind = k := by rw [← h.kinds.head, hx]
  refine ⟨(g x).span, ys, rfl, ?_, h.isInfix (List.suffix_cons x ys).isInfix⟩
  rw [List.map_cons, ← hk]

theorem nil (he : xs.map f = []) : xs.map g = [] := by
  rw [List.map_eq_nil_iff.1 he]
  rfl

end Agree

end

end SnippetConsole
