import Std.Data.ExtTreeMap
import SnippetConsole.Value

/-!
# Objects

An object is a class name and the fields that later statements gave it. It
calls itself by its field `name`, or else by its class, and answers a few
methods with a sentence about itself.
-/

namespace SnippetConsole

/-- A table by name. Two tables with the same entries are equal. -/
abbrev Names (α : Type) := Std.ExtTreeMap String α

/-- An object: its class and its fields. -/
structure Object where
  className : String
  fields : Names Value

namespace Object

/-- A new object has no fields. -/
def ofClass (className : String) : Object := ⟨className, ∅⟩

/-- The value of a field. -/
def field? (object : Object) (field : String) : Option Value := object.fields[field]?

/-- The object with a field given a value. -/
def setField (object : Object) (field : String) (value : Value) : Object :=
  { object with fields := object.fields.insert field value }

/-- What the object calls itself. -/
def label (object : Object) : String :=
  match object.field? "name" with
  | some name => name.shown
  | none => object.className

/-- The methods with a sentence, and the sentence of each. -/
def methods : List (String × (Object → String)) :=
  [("Run", fun object => object.label ++ " is running."),
   ("Shoot", fun object => object.label ++ " is shooting."),
   ("Speak", fun object =>
      match object.field? "sound" with
      | some sound => sound.shown
      | none => object.label ++ " speaks.")]

/-- The sentence that a method prints. -/
def sentence? (object : Object) (method : String) : Option String :=
  (methods.lookup method).map (· object)

theorem field?_setField (object : Object) (field other : String) (value : Value) :
    (object.setField field value).field? other =
      if field = other then some value else object.field? other := by
  simp [setField, field?, Std.ExtTreeMap.getElem?_insert]

end Object

end SnippetConsole
