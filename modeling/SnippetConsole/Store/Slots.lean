import SnippetConsole.Value

/-!
# Arrays

An array is a fixed number of slots. A slot that was never written reads as the
text `null`.
-/

namespace SnippetConsole

/-- The text of a slot that was never written. -/
def unsetText : String := "null"

/-- The slots of an array; an unset slot holds nothing. -/
structure Slots where
  slots : Array (Option Value)
  deriving DecidableEq, Repr

namespace Slots

/-- So many unset slots. -/
def unset (size : Nat) : Slots := ⟨Array.replicate size none⟩

/-- One slot for each value. -/
def ofValues (values : List Value) : Slots := ⟨(values.map some).toArray⟩

/-- The number of slots. -/
def size (a : Slots) : Nat := a.slots.size

/-- The value of a slot in range. -/
def read? (a : Slots) (i : Nat) : Option Value :=
  a.slots[i]?.map (·.getD (.text unsetText))

/-- The array with a slot in range given a value. -/
def write? (a : Slots) (i : Nat) (value : Value) : Option Slots :=
  if i < a.size then some ⟨a.slots.setIfInBounds i (some value)⟩ else none

@[simp] theorem size_unset (n : Nat) : (unset n).size = n := by simp [unset, size]

@[simp] theorem size_ofValues (values : List Value) : (ofValues values).size = values.length := by
  simp [ofValues, size]

theorem size_of_write? {a b : Slots} {i : Nat} {value : Value} (h : a.write? i value = some b) :
    b.size = a.size := by
  unfold write? at h
  split at h
  · obtain rfl := Option.some.inj h
    simp [size]
  · simp at h

theorem read?_of_write? {a b : Slots} {i : Nat} {value : Value} (h : a.write? i value = some b)
    (j : Nat) : b.read? j = if i = j then some value else a.read? j := by
  unfold write? at h
  split at h
  · next hi =>
    obtain rfl := Option.some.inj h
    simp only [read?, Array.getElem?_setIfInBounds]
    simp only [size] at hi
    split <;> simp_all
  · simp at h

end Slots

end SnippetConsole
