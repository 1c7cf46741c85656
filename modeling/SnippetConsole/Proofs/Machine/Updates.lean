import SnippetConsole.Proofs.Expr.Operation
import SnippetConsole.Proofs.Machine.Execution

/-!
# Updates as assignments

A name that stands for a number is updated by an operator and an expression. Where the
operation, written out with the expression in brackets, is a number too, assigning it to
the name does the same.

* `Machine.execute_update_eq_assign` — the two statements leave the same machine.
-/

namespace SnippetConsole

/-- Nothing is trimmed from an operation. -/
theorem text_of_operation {name text : String} {op : Operator} {span : Text.Span}
    (hname : lex name = .ok [⟨.word name, span⟩]) :
    (Expr.of (operation name op text)).text = operation name op text := by
  obtain ⟨c, cs, hcs, hc⟩ := Lexer.head_of_name hname
  have htight : Text.Tight (operation name op text).toList := by
    rw [toList_operation, hcs]
    refine ⟨⟨c, rfl, hc⟩, ⟨')', ?_, by decide⟩⟩
    rw [← List.cons_append, ← List.cons_append, ← List.append_assoc, List.getLast?_append]
    rfl
  rw [Expr.of, Text.trim, htight.trimChars, String.ofList_toList]

variable {store : Store} {limits : Limits} {name : String} {op : Operator} {expr : Expr}
  {es : List Token} {x y z : Float} {span : Text.Span}

theorem Statement.effect_update_of_number (hx : store.get? name = some (.number x))
    (hz : evaluate? store expr.text = some (.number z)) :
    Statement.effect limits store (.update name op expr) =
      .ok (.change (store.define name (.number (op.apply x z)))) := by
  simp only [effect, Expr.value, hx, hz, Option.getD_some, Option.bind_some, updated?,
    Option.map_some, Effect.ofStore?]

theorem Statement.effect_assign_of_number (hx : store.get? name = some (.number x))
    (hy : evaluate? store expr.text = some (.number y)) :
    Statement.effect limits store (.assign name expr) =
      .ok (.change (store.define name (.number y))) := by
  simp only [effect, Expr.value, Store.assign?, hx, hy, Option.getD_some, Option.map_some,
    Effect.ofStore?]

/-- Only the effect of a statement matters to a machine. -/
theorem Machine.execute_congr {m : Machine} {s s' : Statement}
    (h : s.effect m.limits m.store = s'.effect m.limits m.store) : m.execute s = m.execute s' := by
  rcases Nat.lt_or_ge m.executed m.limits.statements with hexec | hexec
  · rw [execute_of_effect hexec, execute_of_effect hexec, h]
  · rw [execute_of_exhausted hexec, execute_of_exhausted hexec]

/-- An update of a number is the assignment of the operation, if this is a number. -/
theorem Machine.execute_update_eq_assign {m : Machine}
    (hname : lex name = .ok [⟨.word name, span⟩]) (hx : m.store.get? name = some (.number x))
    (hlex : lex expr.text = .ok es) (hes : balanced es = true)
    (hy : evaluate? m.store (operation name op expr.text) = some (.number y)) :
    m.execute (.update name op expr) =
      m.execute (.assign name (.of (operation name op expr.text))) := by
  obtain ⟨z, hz, rfl⟩ := exists_operand_of_operation hname hx hlex hes hy
  apply execute_congr
  rw [Statement.effect_update_of_number hx hz,
    Statement.effect_assign_of_number hx (by rwa [text_of_operation hname])]

/-- An update by an element of an array and a number. -/
theorem Machine.execute_update_eq_assign_slot :
    let slots := Slots.ofValues [.number 3, .number 2]
    let m : Machine := { new {} with store := (Store.define {} "x" (.number 6)).putArray "a" slots }
    let expr := Expr.of "-a[1] + 5"
    evaluate? m.store (operation "x" .mul expr.text) = some (.number 18) ∧
      m.execute (.update "x" .mul expr) =
        m.execute (.assign "x" (.of (operation "x" .mul expr.text))) := by
  intro slots m expr
  have hname : lex "x" = .ok [⟨.word "x", ⟨0, 1⟩⟩] := by decide +kernel
  have hx : m.store.get? "x" = some (.number 6) := by decide +kernel
  have hlex : lex expr.text = .ok [⟨.operator .sub, ⟨0, 1⟩⟩, ⟨.word "a", ⟨1, 2⟩⟩,
      ⟨.opening .square, ⟨2, 3⟩⟩, ⟨.number 1, ⟨3, 4⟩⟩, ⟨.closing .square, ⟨4, 5⟩⟩,
      ⟨.operator .add, ⟨6, 7⟩⟩, ⟨.number 5, ⟨8, 9⟩⟩] := by decide +kernel
  have hy : evaluate? m.store (operation "x" .mul expr.text) = some (.number 18) := by
    decide +kernel
  exact ⟨hy, execute_update_eq_assign hname hx hlex (by decide +kernel) hy⟩

end SnippetConsole
