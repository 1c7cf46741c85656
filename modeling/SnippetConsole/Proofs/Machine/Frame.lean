import SnippetConsole.Proofs.Machine.Execution
import SnippetConsole.Proofs.Store.Cells

/-!
# What a statement leaves alone

A statement that changes the store writes one place of it, and a statement that
prints adds one line. All else stays as it was: the other cells of the store, the
names in it, the lines printed before.

* `Statement.place?` — the place that a statement may write in a store.
* `Statement.Writes.read` — a change leaves all cells outside its place alone.
* `Machine.frame_of_execute` — the frame of every statement.
-/

namespace SnippetConsole

/-! ## The place that is written -/

namespace Statement

variable {limits : Limits} {store store' : Store} {s : Statement}

/-- The place that a statement may write. A name that has to exist, and a slot that
has to be in range, is written only where it is. -/
def place? (store : Store) : Statement → Option Place
  | .declare name _ => some (.binding name)
  | .assign name _ | .update name _ _ | .step name _ =>
    (store.get? name).map fun _ => .binding name
  | .construct name _ => some (.object name)
  | .setField object field _ => (store.object? object).map fun _ => .field object field
  | .makeArray name _ => some (.array name)
  | .setSlot array index _ =>
    (store.array? array).bind fun a =>
      ((index.value store).index?.filter (· < a.size)).map (.slot array)
  | .print _ | .printSlot _ _ | .call _ _ | .unrecognized => none

namespace Writes

theorem prints_eq_false (h : s.Writes limits store store') : s.prints = false := by
  cases h <;> rfl

/-- Cells outside the place hold what they held before. -/
theorem read (h : s.Writes limits store store') {cell : Cell}
    (hcell : ∀ place ∈ s.place? store, ¬place.Covers cell) :
    store'.read cell = store.read cell := by
  cases h with
  | declare => exact Store.read_define (hcell _ rfl)
  | assign hget | update hget | step hget =>
    refine Store.read_define (hcell _ ?_)
    rw [place?, hget]
    rfl
  | construct => exact Store.read_putObject (hcell _ rfl)
  | setField hobject =>
    refine Store.read_setField hobject (hcell _ ?_)
    rw [place?, hobject]
    rfl
  | makeArray => exact Store.read_putArray (hcell _ rfl)
  | setSlot hindex harray hwrite =>
    refine Store.read_write harray hwrite (hcell _ ?_)
    simp [place?, harray, hindex, Slots.lt_size_of_write? hwrite]

end Writes

end Statement

/-! ## Names stay -/

/-- Each name of the first store is a name of the second. -/
structure Store.KeepsNames (s s' : Store) : Prop where
  bindings : ∀ name, (s.get? name).isSome → (s'.get? name).isSome
  objects : ∀ name, (s.object? name).isSome → (s'.object? name).isSome
  arrays : ∀ name, (s.array? name).isSome → (s'.array? name).isSome

namespace Store

variable (s : Store) (name : String)

theorem KeepsNames.refl : s.KeepsNames s := ⟨fun _ => id, fun _ => id, fun _ => id⟩

theorem keepsNames_define (value : Value) : s.KeepsNames (s.define name value) where
  bindings other h := by
    rw [get?_define]
    split
    · rfl
    · exact h
  objects _ := id
  arrays _ := id

theorem keepsNames_putObject (object : Object) : s.KeepsNames (s.putObject name object) where
  bindings _ := id
  objects other h := by
    rw [object?_putObject]
    split
    · rfl
    · exact h
  arrays _ := id

theorem keepsNames_putArray (a : Slots) : s.KeepsNames (s.putArray name a) where
  bindings _ := id
  objects _ := id
  arrays other h := by
    rw [array?_putArray]
    split
    · rfl
    · exact h

end Store

theorem Statement.Writes.keepsNames {limits : Limits} {store store' : Store} {s : Statement}
    (h : s.Writes limits store store') : store.KeepsNames store' := by
  cases h with
  | declare | assign | update | step => exact Store.keepsNames_define _ _ _
  | construct | setField => exact Store.keepsNames_putObject _ _ _
  | makeArray | setSlot => exact Store.keepsNames_putArray _ _ _

/-! ## The frame -/

namespace Machine

/-- What a statement without a fault does to a machine, and what it leaves alone. -/
structure Frame (m : Machine) (s : Statement) (m' : Machine) : Prop where
  executed : m'.executed = m.executed + 1
  limits : m'.limits = m.limits
  /-- A statement that prints leaves the store alone and adds one line at most. -/
  printing : s.prints = true → m'.store = m.store ∧ ∃ line? : Option String,
    m'.console = { m.console with lines := m.console.lines ++ line?.toArray }
  /-- All other statements leave the console alone. -/
  silent : s.prints = false → m'.console = m.console
  /-- All cells outside the place of the statement hold what they held. -/
  cells : ∀ cell, (∀ place ∈ s.place? m.store, ¬place.Covers cell) →
    m'.store.read cell = m.store.read cell
  /-- Where the statement has no place to write, the store is the same. -/
  placeless : s.place? m.store = none → m'.store = m.store
  /-- A new object has the class it was made with and no fields. -/
  construct : ∀ name className, s = .construct name className →
    m'.store.read (.className name) = some (.className className) ∧
      ∀ field, m'.store.read (.field name field) = none
  names : m.store.KeepsNames m'.store
  lines : m.console.lines.toList <+: m'.console.lines.toList

/-- Every statement that goes through keeps to its frame. -/
theorem frame_of_execute {m m' : Machine} {s : Statement} (h : m.execute s = (m', none)) :
    m.Frame s m' := by
  have hstep := step_iff.2 h
  have hcells : ∀ cell, (∀ place ∈ s.place? m.store, ¬place.Covers cell) →
      m'.store.read cell = m.store.read cell := by
    intro cell hcell
    cases hstep with
    | idle | printed => rfl
    | changed _ heffect => exact (Statement.writes_iff.2 heffect).read hcell
  refine ⟨hstep.executed, hstep.limits, ?_, ?_, hcells, ?_, ?_, ?_, hstep.lines⟩
  · intro hprints
    cases hstep with
    | idle => exact ⟨rfl, none, by simp [tick]⟩
    | @printed line => exact ⟨rfl, some line, by simp⟩
    | changed _ heffect =>
      rw [(Statement.writes_iff.2 heffect).prints_eq_false] at hprints
      cases hprints
  · intro hprints
    cases hstep with
    | idle | changed => rfl
    | printed _ heffect =>
      rw [Statement.prints_of_effect heffect] at hprints
      cases hprints
  · intro hplace
    refine Store.ext_read fun cell => hcells cell ?_
    simp [hplace]
  · rintro name className rfl
    cases hstep with
    | idle _ heffect | printed _ heffect => cases heffect
    | changed _ heffect =>
      cases heffect
      simp [Store.read, Object.ofClass, Object.field?]
  · cases hstep with
    | idle | printed => exact .refl _
    | changed _ heffect => exact (Statement.writes_iff.2 heffect).keepsNames

/-- An array and an object share a name. Writing a slot of the array leaves the other
slot and the object alone. -/
theorem frame_of_execute_slot :
    let m := (new {}).executeEach
      [.makeArray "n" (.items [⟨"\"a\""⟩, ⟨"\"b\""⟩]), .construct "n" "Car"]
    let s : Statement := .setSlot "n" ⟨"1"⟩ ⟨"\"c\""⟩
    m.execute s = ((m.execute s).1, none) ∧ m.Frame s (m.execute s).1 ∧
      s.place? m.store = some (.slot "n" 1) ∧
      (m.execute s).1.store.read (.slot "n" 0) = m.store.read (.slot "n" 0) ∧
      (m.execute s).1.store.read (.className "n") = m.store.read (.className "n") := by
  intro m s
  have hrun : m.execute s = ((m.execute s).1, none) := Prod.ext rfl (by decide +kernel)
  have hplace : s.place? m.store = some (.slot "n" 1) := by decide +kernel
  have hframe := frame_of_execute hrun
  refine ⟨hrun, hframe, hplace, hframe.cells _ ?_, hframe.cells _ ?_⟩
  · rw [hplace]
    rintro _ ⟨⟩ ⟨⟩
  · rw [hplace]
    rintro _ ⟨⟩ ⟨⟩

end Machine

end SnippetConsole
