import SnippetConsole.Proofs.Machine.Execution

/-!
# Machines and their limits

A machine that starts out new keeps to its limits through any list of statements,
faults or not. And a list that goes through needs no more than what it uses: under
any other limits that allow as much, it does the same.

* `Machine.withinLimits_executeEach` — the limits hold after any statements.
* `Machine.Step.faultFits` — each fault says which limit would have been exceeded.
* `Machine.executeAll_withLimits` — a list does the same under all limits it fits.
-/

namespace SnippetConsole

namespace Machine

/-! ## Keeping to the limits -/

/-- The machine keeps to its limits, but for the number of statements: those that
were refused are counted, too. -/
structure WithinLimits (m : Machine) : Prop where
  capacity : m.console.capacity = m.limits.outputLines
  lines : m.console.lines.size ≤ m.limits.outputLines
  arrays : ∀ name a, m.store.array? name = some a → a.size ≤ m.limits.arrayLength

theorem withinLimits_new (limits : Limits) : (new limits).WithinLimits where
  capacity := rfl
  lines := Nat.zero_le _
  arrays name a h := by simp [new, Store.array?] at h

theorem Step.withinLimits {m m' : Machine} {s : Statement} {fault : Option Fault}
    (h : m.Step s m' fault) (hm : m.WithinLimits) : m'.WithinLimits := by
  cases h with
  | exhausted | refused | idle | full => exact ⟨hm.capacity, hm.lines, hm.arrays⟩
  | changed _ heffect =>
    refine ⟨hm.capacity, hm.lines, ?_⟩
    intro name a ha
    rcases (Statement.writes_iff.2 heffect).size_of_array? ha with hsize | ⟨b, hb, hsize⟩
    · exact hsize
    · rw [← hsize]
      exact hm.arrays name b hb
  | printed _ _ hroom =>
    refine ⟨hm.capacity, ?_, hm.arrays⟩
    rw [hm.capacity] at hroom
    show (m.console.lines.push _).size ≤ m.limits.outputLines
    rw [Array.size_push]
    exact hroom

theorem withinLimits_executeEach {m : Machine} (h : m.WithinLimits) (ss : List Statement) :
    (m.executeEach ss).WithinLimits := by
  induction ss generalizing m with
  | nil => exact h
  | cons s ss ih =>
    rw [executeEach_cons]
    exact ih ((m.step_execute s).withinLimits h)

/-! ## Faults -/

/-- What a fault says, of a statement behind so many others, when the console holds
so many lines. -/
structure FaultFits (limits : Limits) (before lines : Nat) (fault : Option Fault) : Prop where
  statements : ∀ limit, fault = some (.statementLimit limit) ↔
    limit = limits.statements ∧ limits.statements < before + 1
  outputLines : ∀ limit, fault = some (.outputLimit limit) →
    limit = limits.outputLines ∧ lines = limits.outputLines
  arrayLength : ∀ length limit, fault = some (.arrayTooLarge length limit) →
    limit = limits.arrayLength ∧ limit < length

theorem Step.faultFits {m m' : Machine} {s : Statement} {fault : Option Fault}
    (h : m.Step s m' fault) (hm : m.WithinLimits) :
    FaultFits m.limits m.executed m'.console.lines.size fault := by
  cases h with
  | exhausted hexec =>
    refine ⟨?_, nofun, nofun⟩
    intro limit
    rw [Option.some.injEq, Fault.statementLimit.injEq]
    constructor
    · intro hlimit
      exact ⟨hlimit.symm, Nat.lt_succ_of_le hexec⟩
    · intro hlimit
      exact hlimit.1.symm
  | refused hexec heffect =>
    obtain ⟨length, rfl, hlength⟩ := Statement.effect_eq_error heffect
    refine ⟨?_, nofun, ?_⟩
    · intro limit
      simp only [Option.some.injEq, reduceCtorEq, false_iff, not_and]
      omega
    · intro length' limit heq
      obtain ⟨rfl, rfl⟩ := Fault.arrayTooLarge.inj (Option.some.inj heq)
      exact ⟨rfl, hlength⟩
  | full hexec _ hfull =>
    refine ⟨?_, ?_, nofun⟩
    · intro limit
      simp only [Option.some.injEq, reduceCtorEq, false_iff, not_and]
      omega
    · intro limit heq
      obtain rfl := Fault.outputLimit.inj (Option.some.inj heq)
      rw [hm.capacity] at hfull ⊢
      exact ⟨rfl, Nat.le_antisymm hm.lines hfull⟩
  | idle hexec | changed hexec | printed hexec =>
    refine ⟨?_, nofun, nofun⟩
    intro limit
    simp only [reduceCtorEq, false_iff, not_and]
    omega

/-- Statements that go through are within the budget. -/
theorem executed_le_of_executeAll {m r : Machine} {ss : List Statement}
    (hm : m.executed ≤ m.limits.statements) (h : m.executeAll ss = .ok r) :
    r.executed ≤ m.limits.statements := by
  induction ss generalizing m with
  | nil =>
    obtain rfl := Except.ok.inj h
    exact hm
  | cons s ss ih =>
    obtain ⟨m', hs, hss⟩ := executeAll_cons_eq_ok_iff.1 h
    have hstep := step_iff.2 hs
    rw [← hstep.limits]
    refine ih ?_ hss
    rw [hstep.limits, hstep.executed]
    exact hstep.exists_effect.1

end Machine

/-! ## Arrays that are built -/

/-- The array that a statement builds. -/
def Statement.array? (limits : Limits) (store : Store) : Statement → Option Slots
  | .makeArray _ init =>
    match init.slots? limits store with
    | .ok slots => slots
    | .error _ => none
  | _ => none

theorem ArrayInit.slots?_of_fits {limits limits' : Limits} {store : Store} {init : ArrayInit}
    {slots : Option Slots} (h : init.slots? limits store = .ok slots)
    (hfits : ∀ a ∈ slots, a.size ≤ limits'.arrayLength) :
    init.slots? limits' store = .ok slots := by
  cases slots with
  | some a =>
    obtain ⟨hwanted, -⟩ := slots?_eq_some_iff.1 h
    exact slots?_eq_some_iff.2 ⟨hwanted, hfits a rfl⟩
  | none =>
    rw [slots?_eq] at h ⊢
    cases hwanted : init.wanted? store with
    | none => rfl
    | some a =>
      -- an array that is asked for is built or refused
      rw [hwanted] at h
      by_cases hsize : a.size ≤ limits.arrayLength
      · simp [Limits.checkArray_of_le hsize, Except.map] at h
      · simp [Limits.checkArray_of_lt (Nat.lt_of_not_le hsize), Except.map] at h

/-- A statement has the same effect, and builds the same array, under all limits that
the array fits. -/
theorem Statement.effect_of_fits {limits limits' : Limits} {store : Store} {s : Statement}
    {effect : Effect} (h : s.effect limits store = .ok effect)
    (hfits : ∀ a ∈ s.array? limits store, a.size ≤ limits'.arrayLength) :
    s.effect limits' store = .ok effect ∧ s.array? limits' store = s.array? limits store := by
  cases s with
  | makeArray name init =>
    rw [Statement.effect] at h ⊢
    cases hslots : init.slots? limits store with
    | error fault =>
      rw [hslots] at h
      cases h
    | ok slots =>
      simp only [array?, hslots] at hfits
      have hslots' := ArrayInit.slots?_of_fits hslots hfits
      exact ⟨by rw [hslots', ← hslots, h], by simp only [array?, hslots, hslots']⟩
  | print expr => cases expr <;> exact ⟨h, rfl⟩
  | printSlot | declare | assign | update | step | construct | setField | call | setSlot
  | unrecognized => exact ⟨h, rfl⟩

theorem Statement.size_le_of_array? {limits : Limits} {store : Store} {s : Statement}
    {a : Slots} (h : s.array? limits store = some a) : a.size ≤ limits.arrayLength := by
  cases s with
  | makeArray name init =>
    simp only [array?] at h
    split at h
    · next slots hslots =>
      rw [h] at hslots
      exact (ArrayInit.slots?_eq_some_iff.1 hslots).2
    · cases h
  | print | printSlot | declare | assign | update | step | construct | setField | call | setSlot
  | unrecognized => cases h

/-! ## Other limits -/

namespace Machine

/-- The machine under other limits. -/
def withLimits (m : Machine) (limits : Limits) : Machine :=
  { m with limits, console := { m.console with capacity := limits.outputLines } }

/-- The arrays that statements build, up to the first fault. -/
def arraysBuilt (m : Machine) : List Statement → List Slots
  | [] => []
  | s :: ss =>
    match m.execute s with
    | (m', none) => (s.array? m.limits m.store).toList ++ m'.arraysBuilt ss
    | (_, some _) => []

theorem arraysBuilt_cons {m m' : Machine} {s : Statement} (h : m.execute s = (m', none))
    (ss : List Statement) :
    m.arraysBuilt (s :: ss) = (s.array? m.limits m.store).toList ++ m'.arraysBuilt ss := by
  rw [arraysBuilt, h]

theorem size_le_of_mem_arraysBuilt {m : Machine} {ss : List Statement} {a : Slots}
    (h : a ∈ m.arraysBuilt ss) : a.size ≤ m.limits.arrayLength := by
  induction ss generalizing m with
  | nil => exact absurd h List.not_mem_nil
  | cons s ss ih =>
    cases hs : m.execute s with
    | mk m' fault =>
      cases fault with
      | some fault => simp [arraysBuilt, hs] at h
      | none =>
        rw [arraysBuilt_cons hs] at h
        rcases List.mem_append.1 h with h | h
        · exact Statement.size_le_of_array? (Option.mem_toList.1 h)
        · rw [← (step_iff.2 hs).limits]
          exact ih h

/-- What fits other limits happens in the same way under them. -/
theorem Step.withLimits {m m' : Machine} {s : Statement} {limits : Limits}
    (h : m.Step s m' none) (hexec : m'.executed ≤ limits.statements)
    (hlines : m'.console.lines.size ≤ limits.outputLines)
    (harray : ∀ a ∈ s.array? m.limits m.store, a.size ≤ limits.arrayLength) :
    (m.withLimits limits).Step s (m'.withLimits limits) none := by
  cases h with
  | idle _ heffect => exact .idle hexec (Statement.effect_of_fits heffect harray).1
  | changed _ heffect => exact .changed hexec (Statement.effect_of_fits heffect harray).1
  | printed _ heffect =>
    refine .printed hexec (Statement.effect_of_fits heffect harray).1 ?_
    rwa [Array.size_push] at hlines

/-- Statements that go through do the same, and build the same arrays, under all
limits that what they do fits. -/
theorem executeAll_withLimits {m r : Machine} {ss : List Statement} {limits : Limits}
    (h : m.executeAll ss = .ok r) (hexec : r.executed ≤ limits.statements)
    (hlines : r.console.lines.size ≤ limits.outputLines)
    (harrays : ∀ a ∈ m.arraysBuilt ss, a.size ≤ limits.arrayLength) :
    (m.withLimits limits).executeAll ss = .ok (r.withLimits limits) ∧
      (m.withLimits limits).arraysBuilt ss = m.arraysBuilt ss := by
  induction ss generalizing m with
  | nil =>
    obtain rfl := Except.ok.inj h
    exact ⟨rfl, rfl⟩
  | cons s ss ih =>
    obtain ⟨m', hs, hss⟩ := executeAll_cons_eq_ok_iff.1 h
    rw [arraysBuilt_cons hs] at harrays
    -- the machine has counted and printed no more after one statement than at the end
    obtain rfl := executeEach_of_executeAll hss
    have hexec' : m'.executed ≤ limits.statements := by
      rw [executed_executeEach] at hexec
      omega
    have hlines' : m'.console.lines.size ≤ limits.outputLines :=
      Nat.le_trans (m'.lines_executeEach ss).length_le hlines
    have harray : ∀ a ∈ s.array? m.limits m.store, a.size ≤ limits.arrayLength :=
      fun a ha => harrays a (List.mem_append_left _ (Option.mem_toList.2 ha))
    have hstep := (step_iff.2 hs).withLimits hexec' hlines' harray
    obtain ⟨hrun, hbuilt⟩ := ih hss fun a ha => harrays a (List.mem_append_right _ ha)
    refine ⟨?_, ?_⟩
    · rw [executeAll_cons_of_ok hstep.execute, hrun]
    · obtain ⟨-, effect, heffect⟩ := (step_iff.2 hs).exists_effect
      have hsame : s.array? limits m.store = s.array? m.limits m.store :=
        (Statement.effect_of_fits heffect harray).2
      rw [arraysBuilt_cons hstep.execute, arraysBuilt_cons hs, hbuilt, ← hsame]
      rfl

end Machine

end SnippetConsole
