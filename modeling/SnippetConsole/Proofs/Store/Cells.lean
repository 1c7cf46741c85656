import SnippetConsole.Store.Basic

/-!
# The cells of a store

A store is a memory of cells: a value for each bound name, a class and fields for
each object, a size and slots for each array. A place is what one write may touch,
either a single cell or an object or array with all its cells.

* `Store.ext_read` — a store is no more than what its cells hold.
* `Store.read_define`, `Store.read_write` and those between — a write leaves all
  cells outside its place as they were.
-/

namespace SnippetConsole

/-- Where a store keeps something. -/
inductive Cell
  | binding (name : String)
  | className (object : String)
  | field (object field : String)
  | size (array : String)
  | slot (array : String) (i : Nat)
  deriving DecidableEq, Repr

/-- What a cell holds. A slot in range that was never written is unset. -/
inductive Content
  | value (value : Value)
  | className (name : String)
  | size (size : Nat)
  | unset
  deriving DecidableEq, Repr

/-- What one write may touch. -/
inductive Place
  | binding (name : String)
  | object (name : String)
  | field (object field : String)
  | array (name : String)
  | slot (array : String) (i : Nat)
  deriving DecidableEq, Repr

/-- The cell belongs to the place. -/
inductive Place.Covers : Place → Cell → Prop
  | binding {name : String} : Covers (.binding name) (.binding name)
  | className {object : String} : Covers (.object object) (.className object)
  | objectField {object field : String} : Covers (.object object) (.field object field)
  | field {object field : String} : Covers (.field object field) (.field object field)
  | size {array : String} : Covers (.array array) (.size array)
  | arraySlot {array : String} {i : Nat} : Covers (.array array) (.slot array i)
  | slot {array : String} {i : Nat} : Covers (.slot array i) (.slot array i)

/-- What a slot holds. -/
def Content.ofSlot : Option Value → Content
  | some v => .value v
  | none => .unset

theorem Content.ofSlot_inj {a b : Option Value} (h : ofSlot a = ofSlot b) : a = b := by
  cases a <;> cases b <;> simp_all [ofSlot]

theorem Slots.lt_size_of_write? {a b : Slots} {i : Nat} {value : Value}
    (h : a.write? i value = some b) : i < a.size := by
  unfold write? at h
  split at h
  · next hi => exact hi
  · cases h

theorem Slots.getElem?_of_write? {a b : Slots} {i j : Nat} {value : Value}
    (h : a.write? i value = some b) (hne : i ≠ j) : b.slots[j]? = a.slots[j]? := by
  unfold write? at h
  split at h
  · obtain rfl := Option.some.inj h
    exact Array.getElem?_setIfInBounds_ne hne
  · cases h

namespace Store

/-- What a cell of the store holds, if the store has it. -/
def read (s : Store) : Cell → Option Content
  | .binding name => (s.get? name).map .value
  | .className object => (s.object? object).map fun o => .className o.className
  | .field object field => ((s.object? object).bind (·.field? field)).map .value
  | .size array => (s.array? array).map fun a => .size a.size
  | .slot array i => ((s.array? array).bind (·.slots[i]?)).map .ofSlot

/-! ## Cells make up the store -/

section

variable {s s' : Store} (h : ∀ cell, s.read cell = s'.read cell) (name : String)
include h

theorem get?_eq_of_read : s.get? name = s'.get? name :=
  Option.map_injective (fun _ _ => Content.value.inj) (h (.binding name))

theorem object?_eq_of_read : s.object? name = s'.object? name := by
  have hclass := h (.className name)
  have hfield (field : String) := h (.field name field)
  simp only [read] at hclass hfield
  cases ho : s.object? name with
  | none =>
    rw [ho] at hclass
    exact (Option.map_eq_none_iff.1 hclass.symm).symm
  | some o =>
    rw [ho] at hclass hfield
    obtain ⟨o', ho', hname⟩ := Option.map_eq_some_iff.1 hclass.symm
    rw [ho'] at hfield ⊢
    obtain ⟨className, fields⟩ := o
    obtain ⟨className', fields'⟩ := o'
    obtain rfl := Content.className.inj hname
    have hfields : fields = fields' := Std.ExtTreeMap.ext_getElem? fun field =>
      Option.map_injective (fun _ _ => Content.value.inj) (hfield field)
    rw [hfields]

theorem array?_eq_of_read : s.array? name = s'.array? name := by
  have hsize := h (.size name)
  have hslot (i : Nat) := h (.slot name i)
  simp only [read] at hsize hslot
  cases ha : s.array? name with
  | none =>
    rw [ha] at hsize
    exact (Option.map_eq_none_iff.1 hsize.symm).symm
  | some a =>
    rw [ha] at hsize hslot
    obtain ⟨a', ha', -⟩ := Option.map_eq_some_iff.1 hsize.symm
    rw [ha'] at hslot ⊢
    obtain ⟨slots⟩ := a
    obtain ⟨slots'⟩ := a'
    have hslots : slots = slots' := Array.ext_getElem? fun i =>
      Option.map_injective (fun _ _ => Content.ofSlot_inj) (hslot i)
    rw [hslots]

/-- Two stores whose cells hold the same are equal. -/
theorem ext_read : s = s' := by
  obtain ⟨bindings, objects, arrays⟩ := s
  obtain ⟨bindings', objects', arrays'⟩ := s'
  rw [mk.injEq]
  refine ⟨?_, ?_, ?_⟩
  · exact Std.ExtTreeMap.ext_getElem? (get?_eq_of_read h)
  · exact Std.ExtTreeMap.ext_getElem? (object?_eq_of_read h)
  · exact Std.ExtTreeMap.ext_getElem? (array?_eq_of_read h)

end

/-! ## Writes and the cells outside them -/

variable {s : Store} {cell : Cell}

theorem read_define {name : String} {value : Value} (h : ¬(Place.binding name).Covers cell) :
    (s.define name value).read cell = s.read cell := by
  cases cell with
  | binding other =>
    have hne : name ≠ other := by
      rintro rfl
      exact h .binding
    simp only [read, get?_define, if_neg hne]
  | className | field | size | slot => rfl

theorem read_putObject {name : String} {object : Object} (h : ¬(Place.object name).Covers cell) :
    (s.putObject name object).read cell = s.read cell := by
  cases cell with
  | className other =>
    have hne : name ≠ other := by
      rintro rfl
      exact h .className
    simp only [read, object?_putObject, if_neg hne]
  | field other field =>
    have hne : name ≠ other := by
      rintro rfl
      exact h .objectField
    simp only [read, object?_putObject, if_neg hne]
  | binding | size | slot => rfl

theorem read_setField {name field : String} {object : Object} {value : Value}
    (hobject : s.object? name = some object) (h : ¬(Place.field name field).Covers cell) :
    (s.putObject name (object.setField field value)).read cell = s.read cell := by
  by_cases hcell : (Place.object name).Covers cell
  · -- another cell of the same object
    cases hcell with
    | className =>
      simp only [read, object?_putObject, if_pos, hobject, Option.map_some]
      rfl
    | @objectField _ other =>
      have hne : field ≠ other := by
        rintro rfl
        exact h .field
      simp only [read, object?_putObject, if_pos, hobject, Option.bind_some,
        Object.field?_setField, if_neg hne]
  · exact read_putObject hcell

theorem read_putArray {name : String} {a : Slots} (h : ¬(Place.array name).Covers cell) :
    (s.putArray name a).read cell = s.read cell := by
  cases cell with
  | size other =>
    have hne : name ≠ other := by
      rintro rfl
      exact h .size
    simp only [read, array?_putArray, if_neg hne]
  | slot other i =>
    have hne : name ≠ other := by
      rintro rfl
      exact h .arraySlot
    simp only [read, array?_putArray, if_neg hne]
  | binding | className | field => rfl

theorem read_write {name : String} {a b : Slots} {i : Nat} {value : Value}
    (ha : s.array? name = some a) (hwrite : a.write? i value = some b)
    (h : ¬(Place.slot name i).Covers cell) : (s.putArray name b).read cell = s.read cell := by
  by_cases hcell : (Place.array name).Covers cell
  · -- another cell of the same array
    cases hcell with
    | size =>
      simp only [read, array?_putArray, if_pos, ha, Option.map_some, Slots.size_of_write? hwrite]
    | @arraySlot _ j =>
      have hne : i ≠ j := by
        rintro rfl
        exact h .slot
      simp only [read, array?_putArray, if_pos, ha, Option.bind_some,
        Slots.getElem?_of_write? hwrite hne]
  · exact read_putArray hcell

end Store

end SnippetConsole
