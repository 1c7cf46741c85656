import SnippetConsole.Proofs.Machine.Execution

/-!
# Executing in place

A statement may also be executed on a machine that is written as it goes: the count
first, then each check where it is made and each write where it is made, and a fault
leaves behind whatever was written before it. The outcome is the same, because no
statement writes before its last check, so that a fault has nothing to take back.

* `Statement.run_perform` — executing in place is executing.
* `Machine.execute_of_fault` — a statement with a fault changes the count only, and
  the statements around it do what they would do without it.
-/

namespace SnippetConsole

/-! ## Writing as it goes -/

/-- Computations that write a machine. What is written before a fault stays. -/
abbrev InPlace := ExceptT Fault (StateM Machine)

namespace InPlace

/-- The outcome on a machine, and the machine as it is then. -/
def run {α : Type} (p : InPlace α) (m : Machine) : Except Fault α × Machine :=
  Id.run (StateT.run (ExceptT.run p) m)

/-- Counts a statement, and then looks at the budget. -/
def count : InPlace Unit := do
  modify Machine.tick
  let m ← get
  if m.limits.statements < m.executed then throw (.statementLimit m.limits.statements)

/-- Refuses an array that is too long. -/
def checkArray (length : Nat) : InPlace Unit := do
  let m ← get
  if m.limits.arrayLength < length then throw (.arrayTooLarge length m.limits.arrayLength)

/-- Writes the store. -/
def write (change : Store → Store) : InPlace Unit :=
  modify fun m => { m with store := change m.store }

/-- Prints a line. -/
def print (line : String) : InPlace Unit := do
  let m ← get
  if m.console.capacity ≤ m.console.lines.size then throw (.outputLimit m.console.capacity)
  set { m with console := { m.console with lines := m.console.lines.push line } }

/-- Writes the store, if there is something to write. -/
def write? (change? : Option (Store → Store)) : InPlace Unit :=
  match change? with
  | some change => write change
  | none => pure ()

/-- Prints a line, if there is one. -/
def print? : Option String → InPlace Unit
  | some line => print line
  | none => pure ()

/-- What a statement does once it is counted. -/
def act : Statement → InPlace Unit
  | .print none => print ""
  | .print (some expr) => do
    let m ← get
    print (expr.value m.store).shown
  | .printSlot array index => do
    let m ← get
    print? (((m.store.array? array).bind (·.read? index)).map Value.shown)
  | .declare name expr => do
    let m ← get
    write (·.define name (expr.value m.store))
  | .assign name expr => do
    let m ← get
    write? ((m.store.get? name).map fun _ store => store.define name (expr.value m.store))
  | .update name op expr => do
    let m ← get
    write? (((m.store.get? name).bind (updated? op · (expr.value m.store))).map
      fun value store => store.define name value)
  | .step name direction => do
    let m ← get
    write? (((m.store.get? name).bind Value.number?).map
      fun x store => store.define name (.number (x + direction.delta)))
  | .construct name className => write (·.putObject name (.ofClass className))
  | .setField name field expr => do
    let m ← get
    write? ((m.store.object? name).map
      fun object store => store.putObject name (object.setField field (expr.value m.store)))
  | .call name method => do
    let m ← get
    print? ((m.store.object? name).bind (·.sentence? method))
  | .makeArray name (.sized size) => do
    let m ← get
    match (size.value m.store).index? with
    | some n =>
      checkArray n
      write (·.putArray name (.unset n))
    | none => pure ()
  | .makeArray name (.items exprs) => do
    checkArray exprs.length
    let m ← get
    write (·.putArray name (.ofValues (exprs.map (·.value m.store))))
  | .setSlot name index expr => do
    let m ← get
    match (index.value m.store).index? with
    | some i =>
      write? (((m.store.array? name).bind (·.write? i (expr.value m.store))).map
        fun a store => store.putArray name a)
    | none => pure ()
  | .unrecognized => pure ()

end InPlace

/-- Executes the statement in place. -/
def Statement.perform (s : Statement) : InPlace Unit := do
  InPlace.count
  InPlace.act s

/-! ## What each part does -/

namespace InPlace

variable {α β : Type} {m : Machine}

theorem run_bind (p : InPlace α) (f : α → InPlace β) :
    (p >>= f).run m =
      match p.run m with
      | (.ok a, m') => (f a).run m'
      | (.error fault, m') => (.error fault, m') := by
  simp only [run, ExceptT.run_bind, StateT.run_bind, Id.run_bind]
  rcases Id.run (StateT.run (ExceptT.run p) m) with ⟨_ | a, m'⟩ <;> rfl

theorem run_get_bind (f : Machine → InPlace β) : (get >>= f).run m = (f m).run m := by
  have hget : (get : InPlace Machine).run m = (.ok m, m) := rfl
  rw [run_bind, hget]

theorem run_count : count.run m =
    (if m.limits.statements ≤ m.executed then .error (.statementLimit m.limits.statements)
      else .ok (), m.tick) := by
  have hrun : count.run m = (if m.tick.limits.statements < m.tick.executed then
      throw (.statementLimit m.tick.limits.statements) else pure () : InPlace Unit).run m.tick :=
    rfl
  have htick : m.tick.limits.statements < m.tick.executed ↔ m.limits.statements ≤ m.executed :=
    Nat.lt_succ_iff
  rw [hrun]
  by_cases h : m.limits.statements ≤ m.executed
  · rw [if_pos h, if_pos (htick.2 h)]
    rfl
  · rw [if_neg h, if_neg (mt htick.1 h)]
    rfl

theorem run_checkArray (length : Nat) :
    (checkArray length).run m = (m.limits.checkArray length, m) := by
  have hrun : (checkArray length).run m = (if m.limits.arrayLength < length then
      throw (.arrayTooLarge length m.limits.arrayLength) else pure () : InPlace Unit).run m := rfl
  rw [hrun, Limits.checkArray]
  split
  · rfl
  · rfl

/-- Where a change of the machine leaves it: a change that fails leaves it as it was. -/
def settled (m : Machine) : Except Fault Machine → Except Fault Unit × Machine
  | .ok m' => (.ok (), m')
  | .error fault => (.error fault, m)

theorem run_nothing : (pure () : InPlace Unit).run m = settled m (m.apply .nothing) := rfl

theorem run_write (change : Store → Store) :
    (write change).run m = settled m (m.apply (.change (change m.store))) := rfl

theorem run_write? (change? : Option (Store → Store)) :
    (write? change?).run m =
      settled m (m.apply (.ofStore? (change?.map fun change => change m.store))) := by
  cases change? with
  | none => rfl
  | some change => rfl

theorem run_print (line : String) : (print line).run m = settled m (m.apply (.print line)) := by
  by_cases h : m.console.lines.size < m.console.capacity
  · have hpush : m.console.push line =
        .ok { m.console with lines := m.console.lines.push line } := if_pos h
    rw [Machine.apply, hpush, print, run_get_bind, if_neg (Nat.not_le.2 h)]
    rfl
  · have hpush : m.console.push line = .error (.outputLimit m.console.capacity) := if_neg h
    rw [Machine.apply, hpush, print, run_get_bind, if_pos (Nat.not_lt.1 h)]
    rfl

theorem run_print? (line? : Option String) :
    (print? line?).run m = settled m (m.apply (.ofLine? line?)) := by
  cases line? with
  | none => rfl
  | some line => exact run_print line

/-- A statement acts by its effect: where it fails, it has written nothing. -/
theorem run_act (s : Statement) :
    (act s).run m = settled m ((s.effect m.limits m.store).bind m.apply) := by
  cases s with
  | print expr =>
    cases expr with
    | none => rw [act, run_print, Statement.effect, Except.bind]
    | some expr => rw [act, run_get_bind, run_print, Statement.effect, Except.bind]
  | printSlot | call => rw [act, run_get_bind, run_print?, Statement.effect, Except.bind]
  | declare => rw [act, run_get_bind, run_write, Statement.effect, Except.bind]
  | construct => rw [act, run_write, Statement.effect, Except.bind]
  | unrecognized => rw [act, run_nothing, Statement.effect, Except.bind]
  | update | step =>
    simp only [act, run_get_bind, run_write?, Statement.effect, Except.bind, Option.map_map,
      Function.comp_def]
  | assign =>
    simp only [act, run_get_bind, run_write?, Statement.effect, Store.assign?, Except.bind,
      Option.map_map, Function.comp_def]
  | setField =>
    simp only [act, run_get_bind, run_write?, Statement.effect, Store.setField?, Except.bind,
      Option.map_map, Function.comp_def]
  | makeArray name init =>
    cases init with
    | sized size =>
      simp only [act, run_get_bind, Statement.effect, ArrayInit.slots?]
      cases (size.value m.store).index? with
      | none => rw [run_nothing]; rfl
      | some n =>
        simp only [run_bind, run_checkArray]
        cases m.limits.checkArray n with
        | error fault => rfl
        | ok => simp only [run_write, Except.map, Option.map_some, Except.bind, Effect.ofStore?]
    | items exprs =>
      rw [act, run_bind, run_checkArray, Statement.effect, ArrayInit.slots?]
      cases m.limits.checkArray exprs.length with
      | error fault => rfl
      | ok =>
        simp only [run_get_bind, run_write, Except.map, Option.map_some, Except.bind,
          Effect.ofStore?]
  | setSlot name index expr =>
    simp only [act, run_get_bind, Statement.effect, Except.bind]
    cases (index.value m.store).index? with
    | none => rw [run_nothing]; rfl
    | some i =>
      simp only [run_write?, Store.setSlot?, Option.bind_some, Option.map_map, Option.map_bind,
        Function.comp_def]

end InPlace

/-- What a fault comes to as the outcome of a statement. -/
def outcome : Option Fault → Except Fault Unit
  | none => .ok ()
  | some fault => .error fault

/-- Executing in place and executing come to the same, also where they fail. -/
theorem Statement.run_perform (s : Statement) (m : Machine) :
    s.perform.run m = (outcome (m.execute s).2, (m.execute s).1) := by
  rw [perform, InPlace.run_bind, InPlace.run_count]
  by_cases hexec : m.limits.statements ≤ m.executed
  · rw [if_pos hexec, Machine.execute_of_exhausted hexec]
    rfl
  · rw [if_neg hexec, Machine.execute_of_effect (Nat.lt_of_not_le hexec)]
    simp only
    rw [InPlace.run_act]
    show InPlace.settled m.tick ((s.effect m.limits m.store).bind m.tick.apply) = _
    cases (s.effect m.limits m.store).bind m.tick.apply with
    | error fault => rfl
    | ok m' => rfl

/-! ## Statements with faults -/

namespace Machine

theorem Step.eq_tick {m m' : Machine} {s : Statement} {fault : Fault}
    (h : m.Step s m' (some fault)) : m' = m.tick := by
  cases h <;> rfl

/-- Without a fault, a statement does the same on a machine that has counted less. -/
theorem Step.of_count_le {m m' : Machine} {s : Statement} (h : m.Step s m' none) {n : Nat}
    (hn : n ≤ m.executed) :
    ({ m with executed := n } : Machine).Step s { m' with executed := n + 1 } none := by
  cases h with
  | idle hexec heffect => exact .idle (Nat.lt_of_le_of_lt hn hexec) heffect
  | changed hexec heffect => exact .changed (Nat.lt_of_le_of_lt hn hexec) heffect
  | printed hexec heffect hroom => exact .printed (Nat.lt_of_le_of_lt hn hexec) heffect hroom

/-- The statements of a list that go through, when the list goes on after faults. -/
def succeeding (m : Machine) : List Statement → List Statement
  | [] => []
  | s :: ss =>
    match m.execute s with
    | (m', none) => s :: m'.succeeding ss
    | (m', some _) => m'.succeeding ss

/-- The statements that go through, executed by themselves, come to the same machine
but for the count. -/
theorem executeAll_succeeding (m : Machine) (ss : List Statement) {n : Nat}
    (hn : n ≤ m.executed) :
    ({ m with executed := n } : Machine).executeAll (m.succeeding ss) =
      .ok { m.executeEach ss with executed := n + (m.succeeding ss).length } := by
  induction ss generalizing m n with
  | nil => rfl
  | cons s ss ih =>
    rw [executeEach_cons, succeeding]
    cases h : m.execute s with
    | mk m' fault =>
      have hstep := step_iff.2 h
      have hcount := hstep.executed
      cases fault with
      | none =>
        simp only
        rw [executeAll_cons_of_ok (hstep.of_count_le hn).execute, ih m' (by omega),
          List.length_cons, Nat.add_assoc, Nat.add_comm 1]
      | some fault =>
        obtain rfl := hstep.eq_tick
        exact ih m.tick (by omega)

/-- A statement with a fault leaves the store, the console and the limits as they were
and is only counted, also when it is executed in place. So statements that fail leave
no trace among those that go on after them. -/
theorem execute_of_fault (m : Machine) :
    (∀ s m' fault, m.execute s = (m', some fault) →
      m'.store = m.store ∧ m'.console = m.console ∧ m'.limits = m.limits ∧
        m'.executed = m.executed + 1 ∧ s.perform.run m = (.error fault, m')) ∧
    ∀ ss, m.executeAll (m.succeeding ss) =
      .ok { m.executeEach ss with executed := m.executed + (m.succeeding ss).length } := by
  refine ⟨?_, ?_⟩
  · intro s m' fault h
    obtain rfl := (step_iff.2 h).eq_tick
    refine ⟨rfl, rfl, rfl, rfl, ?_⟩
    rw [Statement.run_perform, h]
    rfl
  · intro ss
    exact m.executeAll_succeeding ss (Nat.le_refl _)

/-- A new array of two items is refused, and the array and the object of that name stay. -/
theorem execute_of_fault_array :
    let m := (new ⟨9, 9, 1⟩).executeEach
      [.makeArray "n" (.items [⟨"\"a\""⟩]), .construct "n" "Car"]
    let s : Statement := .makeArray "n" (.items [⟨"\"b\""⟩, ⟨"\"c\""⟩])
    m.execute s = ((m.execute s).1, some (.arrayTooLarge 2 1)) ∧
      (m.execute s).1.store = m.store ∧
      ((m.execute s).1.store.array? "n").map (·.read? 0) = some (some (.text "a")) := by
  intro m s
  have hrun : m.execute s = ((m.execute s).1, some (.arrayTooLarge 2 1)) :=
    Prod.ext rfl (by decide +kernel)
  have hstore := (m.execute_of_fault.1 s _ _ hrun).1
  refine ⟨hrun, hstore, ?_⟩
  rw [hstore]
  decide +kernel

end Machine

end SnippetConsole
