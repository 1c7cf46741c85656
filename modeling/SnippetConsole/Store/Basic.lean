import SnippetConsole.Store.Object
import SnippetConsole.Store.Slots

/-!
# The store

What the statements of a run have named so far. Plain values, objects and arrays
live in three tables, so one name may stand for one of each. There are no
scopes: a name stays until the run ends.
-/

namespace SnippetConsole

/-- The named values, objects and arrays. -/
structure Store where
  bindings : Names Value := ∅
  objects : Names Object := ∅
  arrays : Names Slots := ∅

namespace Store

/-- The value bound to a name. -/
def get? (s : Store) (name : String) : Option Value := s.bindings[name]?

/-- The object of a name. -/
def object? (s : Store) (name : String) : Option Object := s.objects[name]?

/-- The array of a name. -/
def array? (s : Store) (name : String) : Option Slots := s.arrays[name]?

/-- Binds a name, whether or not it was bound before. -/
def define (s : Store) (name : String) (value : Value) : Store :=
  { s with bindings := s.bindings.insert name value }

/-- Makes an object, in place of an earlier one of that name. -/
def putObject (s : Store) (name : String) (object : Object) : Store :=
  { s with objects := s.objects.insert name object }

/-- Makes an array, in place of an earlier one of that name. -/
def putArray (s : Store) (name : String) (a : Slots) : Store :=
  { s with arrays := s.arrays.insert name a }

/-- Gives a bound name a new value. -/
def assign? (s : Store) (name : String) (value : Value) : Option Store :=
  (s.get? name).map fun _ => s.define name value

/-- Gives a field of an object a value. -/
def setField? (s : Store) (name field : String) (value : Value) : Option Store :=
  (s.object? name).map fun object => s.putObject name (object.setField field value)

/-- Gives a slot in range of an array a value. -/
def setSlot? (s : Store) (name : String) (i : Nat) (value : Value) : Option Store :=
  (s.array? name).bind fun a => (a.write? i value).map (s.putArray name)

/-! ## Looking up after a change -/

variable (s : Store) (name other : String)

@[simp] theorem get?_define (value : Value) :
    (s.define name value).get? other = if name = other then some value else s.get? other := by
  simp [define, get?, Std.ExtTreeMap.getElem?_insert]

@[simp] theorem object?_putObject (object : Object) :
    (s.putObject name object).object? other =
      if name = other then some object else s.object? other := by
  simp [putObject, object?, Std.ExtTreeMap.getElem?_insert]

@[simp] theorem array?_putArray (a : Slots) :
    (s.putArray name a).array? other = if name = other then some a else s.array? other := by
  simp [putArray, array?, Std.ExtTreeMap.getElem?_insert]

@[simp] theorem object?_define (value : Value) :
    (s.define name value).object? other = s.object? other := rfl

@[simp] theorem array?_define (value : Value) :
    (s.define name value).array? other = s.array? other := rfl

@[simp] theorem get?_putObject (object : Object) :
    (s.putObject name object).get? other = s.get? other := rfl

@[simp] theorem array?_putObject (object : Object) :
    (s.putObject name object).array? other = s.array? other := rfl

@[simp] theorem get?_putArray (a : Slots) :
    (s.putArray name a).get? other = s.get? other := rfl

@[simp] theorem object?_putArray (a : Slots) :
    (s.putArray name a).object? other = s.object? other := rfl

end Store

end SnippetConsole
