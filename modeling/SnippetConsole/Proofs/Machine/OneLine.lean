import SnippetConsole.Proofs.Expr.OneLine
import SnippetConsole.Proofs.Machine.Execution
import SnippetConsole.Proofs.Statement.Names

/-!
# Machines on one line

As long as statements have no newline in their names and expressions, neither the store
nor the console ever holds one: what is written and what is printed is on one line.

* `oneLine_classify` — the statements of a line are on one line.
* `Statement.Writes.oneLine`, `Statement.oneLine_of_print` — what a statement writes and
  what it prints.
* `Machine.OneLine.executeAll` — a list of statements keeps the machine on one line.
-/

namespace SnippetConsole

/-! ## Statements -/

/-- No name and no expression in the statement has a newline. -/
structure Statement.OneLine (s : Statement) : Prop where
  names : ∀ name ∈ s.names, Text.OneLine name
  exprs : ∀ e ∈ s.exprs, Text.OneLine e.text

theorem oneLine_classify {line : String} {ts : List Token} (hline : Text.OneLine line)
    (hts : Within line.toList ts) : (classify line ts).OneLine where
  names _ hname := hline.of_isInfix ((namedIn_of_classify line ts).isInfix hts hname)
  exprs _ he := hline.of_isInfix (isInfix_of_mem_exprs he)

variable {limits : Limits} {store store' : Store} {s : Statement}

theorem oneLine_updated? {op : Operator} {old v new : Value} (hold : old.OneLine)
    (hv : v.OneLine) (h : updated? op old v = some new) : new.OneLine := by
  unfold updated? at h
  split at h
  · obtain rfl := Option.some.inj h
    exact Value.oneLine_number _
  · split at h
    · obtain rfl := Option.some.inj h
      exact Text.OneLine.append hold hv
    · cases h
  · cases h

theorem ArrayInit.oneLine_wanted? {init : ArrayInit} {a : Slots} (hstore : store.OneLine)
    (hinit : ∀ e ∈ init.exprs, Text.OneLine e.text) (h : init.wanted? store = some a) :
    a.OneLine := by
  cases init with
  | sized size =>
    obtain ⟨n, -, rfl⟩ := Option.map_eq_some_iff.1 h
    exact Slots.oneLine_unset n
  | items items =>
    obtain rfl := Option.some.inj h
    refine Slots.oneLine_ofValues fun v hv => ?_
    obtain ⟨e, he, rfl⟩ := List.mem_map.1 hv
    exact Expr.oneLine_value (hinit e he) hstore

/-- What a statement writes is on one line. -/
theorem Statement.Writes.oneLine (h : s.Writes limits store store') (hs : s.OneLine)
    (hstore : store.OneLine) : store'.OneLine := by
  have hvalue {e : Expr} (he : e ∈ s.exprs) : (e.value store).OneLine :=
    Expr.oneLine_value (hs.exprs e he) hstore
  cases h with
  | declare | assign => exact hstore.define _ (hvalue List.mem_cons_self)
  | update hget hnew =>
    have hold := hstore.bindings _ _ hget
    exact hstore.define _ (oneLine_updated? hold (hvalue List.mem_cons_self) hnew)
  | step => exact hstore.define _ (Value.oneLine_number _)
  | @construct name className =>
    have hclass : Text.OneLine className := hs.names className (by simp)
    exact hstore.putObject name (Object.oneLine_ofClass hclass)
  | setField hobject =>
    have hold := hstore.objects _ _ hobject
    exact hstore.putObject _ (hold.setField _ (hvalue List.mem_cons_self))
  | makeArray hwanted =>
    exact hstore.putArray _ (ArrayInit.oneLine_wanted? hstore hs.exprs hwanted)
  | setSlot _ harray hwrite =>
    have hexpr := hvalue (List.mem_cons_of_mem _ List.mem_cons_self)
    exact hstore.putArray _ ((hstore.arrays _ _ harray).write? hexpr hwrite)

/-- What a statement prints is on one line. -/
theorem Statement.oneLine_of_print {line : String} (h : s.effect limits store = .ok (.print line))
    (hs : s.OneLine) (hstore : store.OneLine) : Text.OneLine line := by
  have hprints := prints_of_effect h
  cases s with
  | print expr =>
    cases expr with
    | none =>
      cases h
      decide
    | some e =>
      cases h
      exact Expr.oneLine_value (hs.exprs e List.mem_cons_self) hstore
  | printSlot array index =>
    have hline := Effect.ofLine?_eq_print_iff.1 (Except.ok.inj h)
    obtain ⟨v, hv, rfl⟩ := Option.map_eq_some_iff.1 hline
    obtain ⟨a, ha, hv⟩ := Option.bind_eq_some_iff.1 hv
    exact hstore.arrays array a ha index v hv
  | call object method =>
    have hline := Effect.ofLine?_eq_print_iff.1 (Except.ok.inj h)
    obtain ⟨o, ho, hline⟩ := Option.bind_eq_some_iff.1 hline
    exact (hstore.objects object o ho).sentence? hline
  | declare | assign | update | step | construct | setField | makeArray | setSlot
  | unrecognized => cases hprints

/-! ## Machines -/

/-- No newline is in the store or in a printed line. -/
structure Machine.OneLine (m : Machine) : Prop where
  store : m.store.OneLine
  lines : ∀ line ∈ m.console.lines.toList, Text.OneLine line

namespace Machine

theorem oneLine_new (limits : Limits) : (new limits).OneLine where
  store := Store.oneLine_empty
  lines _ hline := absurd hline List.not_mem_nil

theorem OneLine.step {m m' : Machine} {fault : Option Fault} (hm : m.OneLine) (hs : s.OneLine)
    (h : m.Step s m' fault) : m'.OneLine := by
  cases h with
  | exhausted | refused | idle | full => exact ⟨hm.store, hm.lines⟩
  | changed _ heffect =>
    exact ⟨(Statement.writes_iff.2 heffect).oneLine hs hm.store, hm.lines⟩
  | @printed line _ heffect =>
    refine ⟨hm.store, ?_⟩
    have hline := Statement.oneLine_of_print heffect hs hm.store
    intro other hother
    rw [Array.toList_push, List.mem_append, List.mem_singleton] at hother
    rcases hother with hother | rfl
    · exact hm.lines other hother
    · exact hline

/-- The induction on the statements: each step keeps the invariant. -/
theorem OneLine.executeAll {m m' : Machine} {ss : List Statement} (hm : m.OneLine)
    (hss : ∀ s ∈ ss, s.OneLine) (h : m.executeAll ss = .ok m') : m'.OneLine := by
  induction ss generalizing m with
  | nil =>
    obtain rfl := Except.ok.inj h
    exact hm
  | cons s ss ih =>
    obtain ⟨hs, hss⟩ := List.forall_mem_cons.1 hss
    obtain ⟨next, hstep, hrest⟩ := executeAll_cons_eq_ok_iff.1 h
    exact ih (hm.step hs (step_iff.2 hstep)) hss hrest

end Machine

end SnippetConsole
