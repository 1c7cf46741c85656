import SnippetConsole.Console
import SnippetConsole.Expr.Evaluation

/-!
# Executing statements

A statement changes the store, prints a line, or does nothing. What it does is
decided on the store as it stands, before anything is changed, so a statement
that exceeds a limit leaves the store and the console as they were.

* `Machine.executed_execute` — every statement is counted, also one that fails.
-/

namespace SnippetConsole

/-- What a statement does. -/
inductive Effect
  | nothing
  | change (store : Store)
  | print (line : String)

namespace Effect

/-- A change, if there is one. -/
def ofStore? : Option Store → Effect
  | some store => .change store
  | none => .nothing

/-- A printed line, if there is one. -/
def ofLine? : Option String → Effect
  | some line => .print line
  | none => .nothing

end Effect

/-- The new value of a name after an operator and an equals sign: numbers take
every operator, texts only take something appended. -/
def updated? (op : Operator) : Value → Value → Option Value
  | .number a, .number b => some (.number (op.apply a b))
  | .text s, v => if op = .add then some (.text (s ++ v.shown)) else none
  | _, _ => none

/-- Refuses an array that is too long. -/
def Limits.checkArray (limits : Limits) (length : Nat) : Except Fault Unit :=
  if limits.arrayLength < length then .error (.arrayTooLarge length limits.arrayLength)
  else .ok ()

/-- The array that an initializer makes; none for a size that is no index. The
length is checked before the array is made or an item evaluated. -/
def ArrayInit.slots? (limits : Limits) (store : Store) : ArrayInit → Except Fault (Option Slots)
  | .sized size =>
    match (size.value store).index? with
    | none => .ok none
    | some n => (limits.checkArray n).map fun _ => some (.unset n)
  | .items exprs =>
    (limits.checkArray exprs.length).map fun _ => some (.ofValues (exprs.map (·.value store)))

/-- What a statement does in a store. -/
def Statement.effect (limits : Limits) (store : Store) : Statement → Except Fault Effect
  | .print none => .ok (.print "")
  | .print (some expr) => .ok (.print (expr.value store).shown)
  | .printSlot array index =>
    .ok (.ofLine? (((store.array? array).bind (·.read? index)).map Value.shown))
  | .declare name expr => .ok (.change (store.define name (expr.value store)))
  | .assign name expr => .ok (.ofStore? (store.assign? name (expr.value store)))
  | .update name op expr =>
    .ok (.ofStore? (((store.get? name).bind (updated? op · (expr.value store))).map
      (store.define name)))
  | .step name direction =>
    .ok (.ofStore? (((store.get? name).bind Value.number?).map fun x =>
      store.define name (.number (x + direction.delta))))
  | .construct name className => .ok (.change (store.putObject name (.ofClass className)))
  | .setField object field expr =>
    .ok (.ofStore? (store.setField? object field (expr.value store)))
  | .call object method =>
    .ok (.ofLine? ((store.object? object).bind (·.sentence? method)))
  | .makeArray name init =>
    (init.slots? limits store).map fun slots => .ofStore? (slots.map (store.putArray name))
  | .setSlot array index expr =>
    .ok (.ofStore? ((index.value store).index?.bind fun i =>
      store.setSlot? array i (expr.value store)))
  | .unrecognized => .ok .nothing

/-- The state of a run. -/
structure Machine where
  limits : Limits
  store : Store := {}
  console : Console
  executed : Nat := 0

namespace Machine

/-- A machine that has executed nothing. -/
def new (limits : Limits) : Machine where
  limits := limits
  console := { capacity := limits.outputLines }

/-- The machine after an effect. -/
def apply (m : Machine) : Effect → Except Fault Machine
  | .nothing => .ok m
  | .change store => .ok { m with store }
  | .print line => (m.console.push line).map fun console => { m with console }

/-- The machine with one more statement counted, if the budget allows it. -/
def tick (m : Machine) : Machine := { m with executed := m.executed + 1 }

/-- Executes one statement and counts it. With a fault comes the machine as it
was, but for the count. -/
def execute (m : Machine) (statement : Statement) : Machine × Option Fault :=
  let m := m.tick
  let outcome :=
    if m.limits.statements < m.executed then .error (.statementLimit m.limits.statements)
    else (statement.effect m.limits m.store).bind m.apply
  match outcome with
  | .ok m => (m, none)
  | .error fault => (m, some fault)

theorem executed_apply {m m' : Machine} {e : Effect} (h : m.apply e = .ok m') :
    m'.executed = m.executed := by
  cases e with
  | nothing => rw [← Except.ok.inj h]
  | change => rw [← Except.ok.inj h]
  | print line =>
    simp only [apply] at h
    cases hp : m.console.push line with
    | error f => simp [hp, Except.map] at h
    | ok c => simp only [hp, Except.map, Except.ok.injEq] at h; rw [← h]

theorem executed_execute (m : Machine) (statement : Statement) :
    (m.execute statement).1.executed = m.executed + 1 := by
  simp only [execute]
  split
  · next m' h =>
    split at h
    · simp at h
    · cases he : statement.effect m.tick.limits m.tick.store with
      | error f => simp [he, Except.bind] at h
      | ok e =>
        simp only [he, Except.bind] at h
        exact executed_apply h
  · rfl

end Machine

end SnippetConsole
