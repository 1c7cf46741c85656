import SnippetConsole.Proofs.Statement.Grammar
import SnippetConsole.Proofs.Statement.Recognition

/-!
# The forms of statements

There are ten forms of statements. A run may fit several of them; the first in a fixed
order that it fits decides, and a run that fits none is not recognized.

* `Grammar.Fits` — a run has a form and makes a statement by it.
* `Grammar.recognizer_eq_some_iff` — each recognizer finds just the runs of its form.
* `Grammar.classify_eq_iff` — a statement is what the first form says that fits.
-/

namespace SnippetConsole

namespace Grammar

/-! ## Forms -/

/-- The forms of statements. -/
inductive Form
  | print
  | makeArray
  | construct
  | declare
  | setField
  | setSlot
  | assign
  | update
  | step
  | call
  deriving DecidableEq, Repr

/-- The order in which the forms are tried. -/
def Form.order : List Form :=
  [.print, .makeArray, .construct, .declare, .setField, .setSlot, .assign, .update, .step, .call]

/-- A run of a line has a form, and the statement is what it makes by that form. -/
inductive Fits (line : String) : Form → List Token → Statement → Prop
  | print {writer : String} {ts body inside : List Token} {s : Statement} :
      Leads [.word "Console", .dot, .word writer] ts body → writer ∈ consoleWriters →
      Enclosed .round inside body → Argument line inside s → Fits line .print ts s
  | makeArray {type name : String} {ts value : List Token} {init : ArrayInit} :
      Leads [.word type, .opening .square, .closing .square, .word name, .equals] ts value →
      Init line true value init → Fits line .makeArray ts (.makeArray name init)
  | makeVar {name : String} {ts value : List Token} {init : ArrayInit} :
      Leads [.word "var", .word name, .equals] ts value → Init line false value init →
      Fits line .makeArray ts (.makeArray name init)
  | construct {type name className : String} {ts body inside : List Token} :
      Leads [.word type, .word name, .equals, .new, .word className] ts body →
      Enclosed .round inside body → Fits line .construct ts (.construct name className)
  | declare {type name : String} {ts value : List Token} :
      Leads [.word type, .word name, .equals] ts value → type ∈ declarationTypes →
      IsExpr value → (∀ t ∈ value.head?, t.kind ≠ .opening .curly) → Solid .comma 0 value →
      Fits line .declare ts (.declare name (exprOf line value))
  | setField {object field : String} {ts value : List Token} :
      Leads [.word object, .dot, .word field, .equals] ts value → IsExpr value →
      Fits line .setField ts (.setField object field (exprOf line value))
  | setSlot {array : String} {ts slot inside rest value : List Token} :
      Leads [.word array] ts (slot ++ rest) → Enclosed .square inside slot → IsExpr inside →
      Leads [.equals] rest value → IsExpr value →
      Fits line .setSlot ts (.setSlot array (exprOf line inside) (exprOf line value))
  | assign {name : String} {ts value : List Token} :
      Leads [.word name, .equals] ts value → IsExpr value → (∀ t ∈ value, t.kind ≠ .new) →
      Fits line .assign ts (.assign name (exprOf line value))
  | update {name : String} {op : Operator} {ts value : List Token} :
      Leads [.word name, .update op] ts value → IsExpr value →
      Fits line .update ts (.update name op (exprOf line value))
  | stepBehind {name : String} {step : Step} {ts : List Token} :
      Leads [.word name, .step step] ts [] → Fits line .step ts (.step name step)
  | stepInFront {name : String} {step : Step} {ts : List Token} :
      Leads [.step step, .word name] ts [] → Fits line .step ts (.step name step)
  | call {object method : String} {ts body inside : List Token} :
      Leads [.word object, .dot, .word method] ts body → object ≠ "Console" →
      Enclosed .round inside body → Fits line .call ts (.call object method)

/-! ## Recognizers -/

section

variable {line : String} {ts : List Token} {s : Statement}

theorem print?_eq_some_iff : Shape.print? line ts = some s ↔ Fits line .print ts s := by
  constructor
  · intro h
    unfold Shape.print? at h
    split at h
    · split at h
      · next hc =>
        obtain ⟨rfl, hwriter⟩ := hc
        obtain ⟨inside, hinside, hs⟩ := Option.bind_eq_some_iff.1 h
        have hbalanced := balanced_of_enclosed? hinside
        exact .print (.cons (.cons (.cons .nil))) hwriter (enclosed_cons_iff.2 hinside)
          ((argument?_eq_some_iff hbalanced).1 hs)
      · cases h
    · cases h
  · intro h
    cases h with
    | print hleads hwriter henclosed hs =>
      simp only [leads_cons_iff, leads_nil_iff] at hleads
      obtain ⟨_, us, rfl, hinside⟩ := henclosed.exists_enclosed?
      obtain ⟨_, _, rfl, _, _, rfl, _, _, rfl, rfl⟩ := hleads
      simp [Shape.print?, hwriter, hinside, (argument?_eq_some_iff henclosed.balanced_inside).2 hs]

theorem makeArray?_eq_some_iff : Shape.makeArray? line ts = some s ↔ Fits line .makeArray ts s := by
  constructor
  · intro h
    unfold Shape.makeArray? at h
    split at h
    · obtain ⟨init, hinit, rfl⟩ := Option.map_eq_some_iff.1 h
      exact .makeArray (.cons (.cons (.cons (.cons (.cons .nil))))) (typedInit?_eq_some_iff.1 hinit)
    · split at h
      · next hvar =>
        subst hvar
        obtain ⟨init, hinit, rfl⟩ := Option.map_eq_some_iff.1 h
        exact .makeVar (.cons (.cons (.cons .nil))) (varInit?_eq_some_iff.1 hinit)
      · cases h
    · cases h
  · intro h
    cases h with
    | makeArray hleads hinit =>
      simp only [leads_cons_iff, leads_nil_iff] at hleads
      obtain ⟨_, _, rfl, _, _, rfl, _, _, rfl, _, _, rfl, _, _, rfl, rfl⟩ := hleads
      simp only [Shape.makeArray?, typedInit?_eq_some_iff.2 hinit, Option.map_some]
    | makeVar hleads hinit =>
      simp only [leads_cons_iff, leads_nil_iff] at hleads
      obtain ⟨_, _, rfl, _, _, rfl, _, _, rfl, rfl⟩ := hleads
      simp only [Shape.makeArray?, varInit?_eq_some_iff.2 hinit, Option.map_some, if_true]

theorem construct?_eq_some_iff : Shape.construct? ts = some s ↔ Fits line .construct ts s := by
  constructor
  · intro h
    unfold Shape.construct? at h
    split at h
    · obtain ⟨inside, hinside, rfl⟩ := Option.map_eq_some_iff.1 h
      exact .construct (.cons (.cons (.cons (.cons (.cons .nil))))) (enclosed_cons_iff.2 hinside)
    · cases h
  · intro h
    cases h with
    | construct hleads henclosed =>
      simp only [leads_cons_iff, leads_nil_iff] at hleads
      obtain ⟨_, us, rfl, hinside⟩ := henclosed.exists_enclosed?
      obtain ⟨_, _, rfl, _, _, rfl, _, _, rfl, _, _, rfl, _, _, rfl, rfl⟩ := hleads
      simp [Shape.construct?, hinside]

theorem startsList_eq_false_iff :
    Shape.startsList ts = false ↔ ∀ t ∈ ts.head?, t.kind ≠ .opening .curly := by
  cases ts with
  | nil => simp [Shape.startsList]
  | cons t ts => simp [Shape.startsList_cons]

theorem declare?_eq_some_iff : Shape.declare? line ts = some s ↔ Fits line .declare ts s := by
  constructor
  · intro h
    unfold Shape.declare? at h
    split at h
    · split at h
      · next hc =>
        obtain ⟨htype, hlist, hcomma⟩ := hc
        obtain ⟨hexpr, rfl⟩ := map_expr?_eq_some_iff.1 h
        exact .declare (.cons (.cons (.cons .nil))) htype hexpr
          (startsList_eq_false_iff.1 (by simpa using hlist)) (splitAtTop_length_eq_one_iff.1 hcomma)
      · cases h
    · cases h
  · intro h
    cases h with
    | declare hleads htype hexpr hlist hcomma =>
      simp only [leads_cons_iff, leads_nil_iff] at hleads
      obtain ⟨_, _, rfl, _, _, rfl, _, _, rfl, rfl⟩ := hleads
      simp [Shape.declare?, htype, startsList_eq_false_iff.2 hlist,
        splitAtTop_length_eq_one_iff.2 hcomma, expr?_eq_some_iff.2 ⟨hexpr, rfl⟩]

theorem setField?_eq_some_iff : Shape.setField? line ts = some s ↔ Fits line .setField ts s := by
  constructor
  · intro h
    unfold Shape.setField? at h
    split at h
    · obtain ⟨hexpr, rfl⟩ := map_expr?_eq_some_iff.1 h
      exact .setField (.cons (.cons (.cons (.cons .nil)))) hexpr
    · cases h
  · intro h
    cases h with
    | setField hleads hexpr =>
      simp only [leads_cons_iff, leads_nil_iff] at hleads
      obtain ⟨_, _, rfl, _, _, rfl, _, _, rfl, _, _, rfl, rfl⟩ := hleads
      simp [Shape.setField?, expr?_eq_some_iff.2 ⟨hexpr, rfl⟩]

theorem setSlot?_eq_some_iff : Shape.setSlot? line ts = some s ↔ Fits line .setSlot ts s := by
  constructor
  · intro h
    unfold Shape.setSlot? at h
    split at h
    · split at h
      · next hb =>
        simp only [Option.bind_eq_bind, Option.bind_eq_some_iff, Option.pure_def,
          Option.some.injEq] at h
        obtain ⟨i, hi, e, he, rfl⟩ := h
        obtain ⟨hindex, rfl⟩ := expr?_eq_some_iff.1 hi
        obtain ⟨hexpr, rfl⟩ := expr?_eq_some_iff.1 he
        obtain ⟨slot, hslot, henclosed⟩ := (bracketed?_eq_some_iff .square _).1 hb
        rw [hslot]
        exact .setSlot (.cons .nil) henclosed hindex (.cons .nil) hexpr
      · cases h
    · cases h
  · intro h
    cases h with
    | setSlot hleads henclosed hindex hequals hexpr =>
      simp only [leads_cons_iff, leads_nil_iff] at hleads hequals
      obtain ⟨_, us, rfl, -⟩ := henclosed.exists_enclosed?
      obtain ⟨_, _, rfl, rfl⟩ := hequals
      obtain ⟨_, _, rfl, rfl⟩ := hleads
      have hbracketed (after : List Token) : bracketed? (us ++ after) = some (_, after) :=
        (bracketed?_eq_some_iff _ _).2 ⟨_, rfl, henclosed⟩
      simp [Shape.setSlot?, hbracketed, expr?_eq_some_iff.2 ⟨hindex, rfl⟩,
        expr?_eq_some_iff.2 ⟨hexpr, rfl⟩]

theorem assign?_eq_some_iff : Shape.assign? line ts = some s ↔ Fits line .assign ts s := by
  constructor
  · intro h
    unfold Shape.assign? at h
    split at h
    · split at h
      · cases h
      · next hnew =>
        obtain ⟨hexpr, rfl⟩ := map_expr?_eq_some_iff.1 h
        exact .assign (.cons (.cons .nil)) hexpr (by simpa using hnew)
    · cases h
  · intro h
    cases h with
    | assign hleads hexpr hnew =>
      simp only [leads_cons_iff, leads_nil_iff] at hleads
      obtain ⟨_, _, rfl, _, _, rfl, rfl⟩ := hleads
      simpa [Shape.assign?, expr?_eq_some_iff.2 ⟨hexpr, rfl⟩] using hnew

theorem update?_eq_some_iff : Shape.update? line ts = some s ↔ Fits line .update ts s := by
  constructor
  · intro h
    unfold Shape.update? at h
    split at h
    · obtain ⟨hexpr, rfl⟩ := map_expr?_eq_some_iff.1 h
      exact .update (.cons (.cons .nil)) hexpr
    · cases h
  · intro h
    cases h with
    | update hleads hexpr =>
      simp only [leads_cons_iff, leads_nil_iff] at hleads
      obtain ⟨_, _, rfl, _, _, rfl, rfl⟩ := hleads
      simp [Shape.update?, expr?_eq_some_iff.2 ⟨hexpr, rfl⟩]

theorem step?_eq_some_iff : Shape.step? ts = some s ↔ Fits line .step ts s := by
  constructor
  · intro h
    unfold Shape.step? at h
    split at h
    · cases h
      exact .stepBehind (.cons (.cons .nil))
    · cases h
      exact .stepInFront (.cons (.cons .nil))
    · cases h
  · intro h
    cases h with
    | stepBehind hleads | stepInFront hleads =>
      simp only [leads_cons_iff, leads_nil_iff] at hleads
      obtain ⟨_, _, rfl, _, _, rfl, rfl⟩ := hleads
      rfl

theorem call?_eq_some_iff : Shape.call? ts = some s ↔ Fits line .call ts s := by
  constructor
  · intro h
    unfold Shape.call? at h
    split at h
    · split at h
      · cases h
      · next hobject =>
        obtain ⟨inside, hinside, rfl⟩ := Option.map_eq_some_iff.1 h
        exact .call (.cons (.cons (.cons .nil))) hobject (enclosed_cons_iff.2 hinside)
    · cases h
  · intro h
    cases h with
    | call hleads hobject henclosed =>
      simp only [leads_cons_iff, leads_nil_iff] at hleads
      obtain ⟨_, us, rfl, hinside⟩ := henclosed.exists_enclosed?
      obtain ⟨_, _, rfl, _, _, rfl, _, _, rfl, rfl⟩ := hleads
      simp [Shape.call?, hobject, hinside]

/-- The recognizer of a form. -/
def Form.recognizer (line : String) : Form → List Token → Option Statement
  | .print => Shape.print? line
  | .makeArray => Shape.makeArray? line
  | .construct => Shape.construct?
  | .declare => Shape.declare? line
  | .setField => Shape.setField? line
  | .setSlot => Shape.setSlot? line
  | .assign => Shape.assign? line
  | .update => Shape.update? line
  | .step => Shape.step?
  | .call => Shape.call?

theorem recognizers_eq (line : String) :
    Shape.recognizers line = Form.order.map (Form.recognizer line) := rfl

theorem recognizer_eq_some_iff {form : Form} :
    form.recognizer line ts = some s ↔ Fits line form ts s := by
  cases form with
  | print => exact print?_eq_some_iff
  | makeArray => exact makeArray?_eq_some_iff
  | construct => exact construct?_eq_some_iff
  | declare => exact declare?_eq_some_iff
  | setField => exact setField?_eq_some_iff
  | setSlot => exact setSlot?_eq_some_iff
  | assign => exact assign?_eq_some_iff
  | update => exact update?_eq_some_iff
  | step => exact step?_eq_some_iff
  | call => exact call?_eq_some_iff

theorem recognizer_eq_none_iff {form : Form} :
    form.recognizer line ts = none ↔ ∀ s, ¬Fits line form ts s := by
  simp only [Option.eq_none_iff_forall_ne_some, ne_eq, recognizer_eq_some_iff]

/-! ## The first form that fits -/

/-- The run is what is left of the tokens when all semicolons at their end are dropped. -/
def Trimmed (ts run : List Token) : Prop :=
  ∃ semicolons, ts = run ++ semicolons ∧ (∀ t ∈ semicolons, t.kind = .semicolon) ∧
    ∀ t ∈ run.getLast?, t.kind ≠ .semicolon

/-- The statement is what the first form in order says that the run fits, or the run fits
no form and is not recognized. -/
def Chosen (line : String) (run : List Token) (s : Statement) : Prop :=
  (∃ before form after, Form.order = before ++ form :: after ∧ Fits line form run s ∧
    ∀ earlier ∈ before, ∀ s', ¬Fits line earlier run s') ∨
  (∀ form s', ¬Fits line form run s') ∧ s = .unrecognized

theorem Form.mem_order (form : Form) : form ∈ Form.order := by
  cases form <;> decide

theorem trimmed_iff {run : List Token} : Trimmed ts run ↔ run = dropSemicolons ts := by
  rw [dropSemicolons, Text.dropEndWhile_eq]
  constructor
  · rintro ⟨semicolons, rfl, hsemicolons, hlast⟩
    have hself : run.rdropWhile (·.kind = .semicolon) = run := by
      rw [List.rdropWhile_eq_self_iff]
      intro hne
      simpa using hlast _ (List.getLast?_eq_some_getLast hne)
    rw [List.rdropWhile, List.reverse_append,
      List.dropWhile_append_of_pos (by simpa using hsemicolons)]
    exact hself.symm
  · rintro rfl
    refine ⟨ts.rtakeWhile (·.kind = .semicolon), List.rdropWhile_append_rtakeWhile.symm, ?_, ?_⟩
    · intro t ht
      simpa using List.mem_rtakeWhile_imp ht
    · intro t ht
      have hne := List.ne_nil_of_mem (List.mem_of_getLast? ht)
      have hlast := List.rdropWhile_last_not _ _ hne
      rw [List.getLast_of_mem_getLast? ht] at hlast
      simpa using hlast

theorem findSome?_recognizers_eq_none_iff {run : List Token} :
    (Shape.recognizers line).findSome? (· run) = none ↔ ∀ form s', ¬Fits line form run s' := by
  rw [recognizers_eq, List.findSome?_map, List.findSome?_eq_none_iff]
  constructor
  · exact fun h form => recognizer_eq_none_iff.1 (h form form.mem_order)
  · exact fun h form _ => recognizer_eq_none_iff.2 (h form)

theorem findSome?_recognizers_eq_some_iff {run : List Token} :
    (Shape.recognizers line).findSome? (· run) = some s ↔
      ∃ before form after, Form.order = before ++ form :: after ∧ Fits line form run s ∧
        ∀ earlier ∈ before, ∀ s', ¬Fits line earlier run s' := by
  rw [recognizers_eq, List.findSome?_map, List.findSome?_eq_some_iff]
  simp only [Function.comp_apply, recognizer_eq_some_iff, recognizer_eq_none_iff]

theorem chosen_iff {run : List Token} :
    Chosen line run s ↔ ((Shape.recognizers line).findSome? (· run)).getD .unrecognized = s := by
  rw [Chosen, ← findSome?_recognizers_eq_none_iff, ← findSome?_recognizers_eq_some_iff]
  cases (Shape.recognizers line).findSome? (· run) with
  | none => simp [eq_comm]
  | some s' => simp

/-- A run of tokens makes the statement that the first form says that it fits, when the
semicolons at its end are dropped; if it fits none, it is not recognized. -/
theorem classify_eq_iff : classify line ts = s ↔ ∃ run, Trimmed ts run ∧ Chosen line run s := by
  simp only [trimmed_iff, exists_eq_left, chosen_iff]
  rfl

end

end Grammar

end SnippetConsole
