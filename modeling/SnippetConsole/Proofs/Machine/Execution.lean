import Mathlib.Data.List.Forall2
import SnippetConsole.Proofs.Machine.Effects

/-!
# What one statement does to a machine

Executing a statement counts it, and then one of six things happens: the budget
is used up, an array is refused, nothing, the store changes, a line is printed,
or the console is full. Later proofs look at these cases and never at the
definition.

* `Machine.step_iff` — the six cases are what `execute` computes.
* `Machine.executeAll`, `Machine.executeEach` — statements in order, where a fault
  ends the list or not.
-/

namespace SnippetConsole

/-! ## One statement -/

namespace Machine

/-- What happens when a statement is executed. -/
inductive Step (m : Machine) (s : Statement) : Machine → Option Fault → Prop
  /-- The budget of statements is used up. -/
  | exhausted : m.limits.statements ≤ m.executed →
      Step m s m.tick (some (.statementLimit m.limits.statements))
  /-- An array would be too long. -/
  | refused {fault : Fault} : m.executed < m.limits.statements →
      s.effect m.limits m.store = .error fault → Step m s m.tick (some fault)
  | idle : m.executed < m.limits.statements →
      s.effect m.limits m.store = .ok .nothing → Step m s m.tick none
  | changed {store : Store} : m.executed < m.limits.statements →
      s.effect m.limits m.store = .ok (.change store) → Step m s { m.tick with store } none
  | printed {line : String} : m.executed < m.limits.statements →
      s.effect m.limits m.store = .ok (.print line) →
      m.console.lines.size < m.console.capacity →
      Step m s { m.tick with console := { m.console with lines := m.console.lines.push line } }
        none
  /-- There is no room for another line. -/
  | full {line : String} : m.executed < m.limits.statements →
      s.effect m.limits m.store = .ok (.print line) →
      m.console.capacity ≤ m.console.lines.size →
      Step m s m.tick (some (.outputLimit m.console.capacity))

theorem execute_of_exhausted {m : Machine} {s : Statement}
    (h : m.limits.statements ≤ m.executed) :
    m.execute s = (m.tick, some (.statementLimit m.limits.statements)) := by
  have hlt : m.tick.limits.statements < m.tick.executed := Nat.lt_succ_of_le h
  simp only [execute, if_pos hlt]
  rfl

theorem execute_of_effect {m : Machine} {s : Statement} (h : m.executed < m.limits.statements) :
    m.execute s =
      match (s.effect m.limits m.store).bind m.tick.apply with
      | .ok m' => (m', none)
      | .error fault => (m.tick, some fault) := by
  have hle : ¬m.tick.limits.statements < m.tick.executed := Nat.not_lt.2 h
  simp only [execute, if_neg hle]
  rfl

theorem Step.execute {m m' : Machine} {s : Statement} {fault : Option Fault}
    (h : m.Step s m' fault) : m.execute s = (m', fault) := by
  cases h with
  | exhausted hexec => exact execute_of_exhausted hexec
  | refused hexec heffect | idle hexec heffect | changed hexec heffect =>
    rw [execute_of_effect hexec, heffect]
    rfl
  | printed hexec heffect hroom =>
    have hpush : m.tick.console.lines.size < m.tick.console.capacity := hroom
    rw [execute_of_effect hexec, heffect]
    simp only [Except.bind, apply, Console.push, if_pos hpush]
    rfl
  | full hexec heffect hfull =>
    have hpush : ¬m.tick.console.lines.size < m.tick.console.capacity := Nat.not_lt.2 hfull
    rw [execute_of_effect hexec, heffect]
    simp only [Except.bind, apply, Console.push, if_neg hpush]
    rfl

/-- Something happens, whatever the statement. -/
theorem exists_step (m : Machine) (s : Statement) : ∃ m' fault, m.Step s m' fault := by
  by_cases hexec : m.limits.statements ≤ m.executed
  · exact ⟨_, _, .exhausted hexec⟩
  · have hexec := Nat.lt_of_not_le hexec
    cases heffect : s.effect m.limits m.store with
    | error fault => exact ⟨_, _, .refused hexec heffect⟩
    | ok effect =>
      cases effect with
      | nothing => exact ⟨_, _, .idle hexec heffect⟩
      | change store => exact ⟨_, _, .changed hexec heffect⟩
      | print line =>
        by_cases hroom : m.console.lines.size < m.console.capacity
        · exact ⟨_, _, .printed hexec heffect hroom⟩
        · exact ⟨_, _, .full hexec heffect (Nat.le_of_not_lt hroom)⟩

theorem step_iff {m m' : Machine} {s : Statement} {fault : Option Fault} :
    m.Step s m' fault ↔ m.execute s = (m', fault) := by
  constructor
  · exact Step.execute
  · intro h
    obtain ⟨m'', fault', hstep⟩ := m.exists_step s
    rw [hstep.execute, Prod.mk.injEq] at h
    obtain ⟨rfl, rfl⟩ := h
    exact hstep

theorem step_execute (m : Machine) (s : Statement) :
    m.Step s (m.execute s).1 (m.execute s).2 := step_iff.2 rfl

/-! ## What no statement changes -/

namespace Step

variable {m m' : Machine} {s : Statement} {fault : Option Fault}

theorem limits (h : m.Step s m' fault) : m'.limits = m.limits := by
  cases h <;> rfl

theorem executed (h : m.Step s m' fault) : m'.executed = m.executed + 1 := by
  rw [← executed_execute m s, h.execute]

/-- Lines that are printed stay. -/
theorem lines (h : m.Step s m' fault) :
    m.console.lines.toList <+: m'.console.lines.toList := by
  cases h with
  | printed => simp
  | exhausted | refused | idle | changed | full => exact List.prefix_refl _

/-- Without a fault the statement was within the budget and had an effect. -/
theorem exists_effect (h : m.Step s m' none) :
    m.executed < m.limits.statements ∧ ∃ effect, s.effect m.limits m.store = .ok effect := by
  cases h with
  | idle hexec heffect | changed hexec heffect | printed hexec heffect =>
    exact ⟨hexec, _, heffect⟩

end Step

/-! ## Lists of statements -/

/-- Executes statements in order, up to the first fault. -/
def executeAll (m : Machine) : List Statement → Except Fault Machine
  | [] => .ok m
  | s :: ss =>
    match m.execute s with
    | (m', none) => m'.executeAll ss
    | (_, some fault) => .error fault

@[simp] theorem executeAll_nil (m : Machine) : m.executeAll [] = .ok m := rfl

theorem executeAll_cons_of_ok {m m' : Machine} {s : Statement} (h : m.execute s = (m', none))
    (ss : List Statement) : m.executeAll (s :: ss) = m'.executeAll ss := by
  rw [executeAll, h]

theorem executeAll_cons_of_fault {m m' : Machine} {s : Statement} {fault : Fault}
    (h : m.execute s = (m', some fault)) (ss : List Statement) :
    m.executeAll (s :: ss) = .error fault := by
  rw [executeAll, h]

theorem executeAll_cons_eq_ok_iff {m r : Machine} {s : Statement} {ss : List Statement} :
    m.executeAll (s :: ss) = .ok r ↔
      ∃ m', m.execute s = (m', none) ∧ m'.executeAll ss = .ok r := by
  cases h : m.execute s with
  | mk m' fault =>
    cases fault with
    | none => simp [executeAll_cons_of_ok h]
    | some fault => simp [executeAll_cons_of_fault h]

theorem executeAll_append (m : Machine) (a b : List Statement) :
    m.executeAll (a ++ b) = (m.executeAll a).bind (·.executeAll b) := by
  induction a generalizing m with
  | nil => rfl
  | cons s a ih =>
    cases h : m.execute s with
    | mk m' fault =>
      cases fault with
      | none => rw [List.cons_append, executeAll_cons_of_ok h, executeAll_cons_of_ok h, ih]
      | some fault =>
        rw [List.cons_append, executeAll_cons_of_fault h, executeAll_cons_of_fault h]
        rfl

/-- Executes statements in order, going on after a fault. -/
def executeEach (m : Machine) (ss : List Statement) : Machine :=
  ss.foldl (fun m s => (m.execute s).1) m

theorem executeEach_cons (m : Machine) (s : Statement) (ss : List Statement) :
    m.executeEach (s :: ss) = (m.execute s).1.executeEach ss := rfl

theorem executeEach_concat (m : Machine) (ss : List Statement) (s : Statement) :
    m.executeEach (ss ++ [s]) = ((m.executeEach ss).execute s).1 := by
  simp [executeEach]

theorem executed_executeEach (m : Machine) (ss : List Statement) :
    (m.executeEach ss).executed = m.executed + ss.length := by
  induction ss generalizing m with
  | nil => rfl
  | cons s ss ih =>
    rw [executeEach_cons, ih, executed_execute, List.length_cons]
    omega

theorem limits_executeEach (m : Machine) (ss : List Statement) :
    (m.executeEach ss).limits = m.limits := by
  induction ss generalizing m with
  | nil => rfl
  | cons s ss ih => rw [executeEach_cons, ih, (m.step_execute s).limits]

theorem lines_executeEach (m : Machine) (ss : List Statement) :
    m.console.lines.toList <+: (m.executeEach ss).console.lines.toList := by
  induction ss generalizing m with
  | nil => exact List.prefix_refl _
  | cons s ss ih =>
    rw [executeEach_cons]
    exact (m.step_execute s).lines.trans (ih _)

/-- A list without a fault is executed alike whether or not faults end it. -/
theorem executeEach_of_executeAll {m r : Machine} {ss : List Statement}
    (h : m.executeAll ss = .ok r) : m.executeEach ss = r := by
  induction ss generalizing m with
  | nil => exact Except.ok.inj h
  | cons s ss ih =>
    obtain ⟨m', hs, hss⟩ := executeAll_cons_eq_ok_iff.1 h
    rw [executeEach_cons, hs]
    exact ih hss

end Machine

/-! ## Statements that print -/

/-- The statement prints the line, whatever the store holds. -/
def Statement.Prints (s : Statement) (line : String) : Prop :=
  ∀ limits store, s.effect limits store = .ok (.print line)

namespace Machine

/-- The machine after statements that have printed a line each. -/
def printed (m : Machine) (lines : List String) : Machine :=
  { m with
    console := { m.console with lines := m.console.lines ++ lines.toArray }
    executed := m.executed + lines.length }

theorem execute_of_print {m : Machine} {s : Statement} {line : String}
    (hexec : m.executed < m.limits.statements) (hroom : m.console.lines.size < m.console.capacity)
    (heffect : s.effect m.limits m.store = .ok (.print line)) :
    m.execute s = (m.printed [line], none) := by
  rw [(Step.printed hexec heffect hroom).execute]
  simp [printed, tick]

/-- Statements that print do so in order as long as there is room. -/
theorem executeAll_of_prints {m : Machine} {ss : List Statement} {lines : List String}
    (h : List.Forall₂ Statement.Prints ss lines)
    (hexec : m.executed + lines.length ≤ m.limits.statements)
    (hroom : m.console.lines.size + lines.length ≤ m.console.capacity) :
    m.executeAll ss = .ok (m.printed lines) := by
  induction h generalizing m with
  | nil => simp [printed]
  | @cons s line ss lines hs _ ih =>
    rw [List.length_cons] at hexec hroom
    have hstep := (Step.printed (by omega) (hs m.limits m.store) (by omega)).execute
    have hlines : m.console.lines.push line ++ lines.toArray =
        m.console.lines ++ (line :: lines).toArray := by simp
    rw [executeAll_cons_of_ok hstep, ih]
    · simp only [printed, tick, hlines, List.length_cons, Nat.add_assoc, Nat.add_comm 1]
    · simp only [tick]
      omega
    · simp only [Array.size_push]
      omega

end Machine

end SnippetConsole
