import SnippetConsole.Proofs.Decimal.Characters
import SnippetConsole.Store.Basic

/-!
# Values on one line

A text without a newline shows as one line. Numbers and truth values always do, and
joined values do if their parts do. A store is on one line if all that it holds is; each
way to write to it keeps that.

* `Value.oneLine_number` — no number shows a newline.
* `Object.OneLine.sentence?` — the sentences of an object are on one line.
* `Store.OneLine.define`, `Store.OneLine.putObject`, `Store.OneLine.putArray` — the ways
  to write to a store.
-/

namespace SnippetConsole

/-- The text has no newline in it. -/
def Text.OneLine (text : String) : Prop := '\n' ∉ text.toList

instance (text : String) : Decidable (Text.OneLine text) := inferInstanceAs (Decidable (¬_))

namespace Text.OneLine

theorem of_isInfix {part text : String} (h : OneLine text) (hpart : part.toList <:+: text.toList) :
    OneLine part := fun hmem => h (hpart.subset hmem)

theorem append {a b : String} (ha : OneLine a) (hb : OneLine b) : OneLine (a ++ b) := by
  unfold OneLine
  rw [String.toList_append, List.mem_append, not_or]
  exact ⟨ha, hb⟩

end Text.OneLine

/-! ## Values -/

/-- The value shows as one line. -/
def Value.OneLine (v : Value) : Prop := Text.OneLine v.shown

namespace Value

theorem oneLine_number (x : Float) : (number x).OneLine := by
  unfold OneLine shown Text.OneLine
  rcases layout.write_cases x with h | h
  · intro hmem
    exact absurd (h _ hmem) (by decide)
  · have hnames : ∀ name ∈ [layout.positiveInfinity, layout.negativeInfinity, layout.notANumber],
        '\n' ∉ name.toList := by decide
    exact hnames _ h

theorem oneLine_truth (b : Bool) : (truth b).OneLine := by
  unfold OneLine
  cases b <;> decide

theorem OneLine.plus {v w : Value} (hv : v.OneLine) (hw : w.OneLine) : (v.plus w).OneLine := by
  unfold Value.plus
  split
  · exact oneLine_number _
  · exact Text.OneLine.append hv hw

end Value

/-! ## Objects -/

/-- The class and the fields of the object show as one line each. -/
structure Object.OneLine (object : Object) : Prop where
  className : Text.OneLine object.className
  fields : ∀ field v, object.field? field = some v → v.OneLine

namespace Object

theorem oneLine_ofClass {className : String} (h : Text.OneLine className) :
    (ofClass className).OneLine where
  className := h
  fields field v hv := by simp [ofClass, field?] at hv

variable {object : Object} (h : object.OneLine)
include h

theorem OneLine.setField (field : String) {value : Value} (hvalue : value.OneLine) :
    (object.setField field value).OneLine where
  className := h.className
  fields other v hv := by
    rw [field?_setField] at hv
    split at hv
    · obtain rfl := Option.some.inj hv
      exact hvalue
    · exact h.fields other v hv

theorem OneLine.label : Text.OneLine object.label := by
  unfold Object.label
  split
  · next hname => exact h.fields _ _ hname
  · exact h.className

theorem OneLine.sentence? {method line : String} (hline : object.sentence? method = some line) :
    Text.OneLine line := by
  have hmethods : ∀ entry ∈ methods, Text.OneLine (entry.2 object) := by
    simp only [methods, List.forall_mem_cons]
    refine ⟨h.label.append (by decide), h.label.append (by decide), ?_, by simp⟩
    split
    · next hsound => exact h.fields _ _ hsound
    · exact h.label.append (by decide)
  obtain ⟨sentence, hlookup, rfl⟩ := Option.map_eq_some_iff.1 hline
  obtain ⟨before, after, heq, -⟩ := List.lookup_eq_some_iff.1 hlookup
  exact hmethods (method, sentence) (by rw [heq]; simp)

end Object

/-! ## Arrays -/

/-- All slots of the array show as one line each. -/
def Slots.OneLine (a : Slots) : Prop := ∀ i v, a.read? i = some v → v.OneLine

namespace Slots

theorem oneLine_unset (size : Nat) : (unset size).OneLine := by
  intro i v hv
  simp only [unset, read?, Option.map_eq_some_iff, Array.getElem?_replicate] at hv
  obtain ⟨slot, hslot, rfl⟩ := hv
  split at hslot
  · obtain rfl := Option.some.inj hslot
    show Text.OneLine unsetText
    decide
  · cases hslot

theorem oneLine_ofValues {values : List Value} (h : ∀ v ∈ values, v.OneLine) :
    (ofValues values).OneLine := by
  intro i v hv
  simp only [ofValues, read?, List.getElem?_toArray, List.getElem?_map, Option.map_map,
    Option.map_eq_some_iff] at hv
  obtain ⟨w, hw, rfl⟩ := hv
  exact h w (List.mem_of_getElem? hw)

theorem OneLine.write? {a b : Slots} {i : Nat} {value : Value} (h : a.OneLine)
    (hvalue : value.OneLine) (hwrite : a.write? i value = some b) : b.OneLine := by
  intro j v hv
  rw [read?_of_write? hwrite] at hv
  split at hv
  · obtain rfl := Option.some.inj hv
    exact hvalue
  · exact h j v hv

end Slots

/-! ## Stores -/

/-- All that the store holds shows as one line. -/
structure Store.OneLine (s : Store) : Prop where
  bindings : ∀ name v, s.get? name = some v → v.OneLine
  objects : ∀ name object, s.object? name = some object → object.OneLine
  arrays : ∀ name a, s.array? name = some a → a.OneLine

namespace Store

theorem oneLine_empty : ({} : Store).OneLine where
  bindings name v h := by simp [get?] at h
  objects name object h := by simp [object?] at h
  arrays name a h := by simp [array?] at h

namespace OneLine

variable {s : Store} (h : s.OneLine) (name : String)
include h

theorem define {value : Value} (hvalue : value.OneLine) : (s.define name value).OneLine where
  bindings other v hv := by
    rw [get?_define] at hv
    split at hv
    · obtain rfl := Option.some.inj hv
      exact hvalue
    · exact h.bindings other v hv
  objects := h.objects
  arrays := h.arrays

theorem putObject {object : Object} (hobject : object.OneLine) :
    (s.putObject name object).OneLine where
  bindings := h.bindings
  objects other o ho := by
    rw [object?_putObject] at ho
    split at ho
    · obtain rfl := Option.some.inj ho
      exact hobject
    · exact h.objects other o ho
  arrays := h.arrays

theorem putArray {a : Slots} (ha : a.OneLine) : (s.putArray name a).OneLine where
  bindings := h.bindings
  objects := h.objects
  arrays other b hb := by
    rw [array?_putArray] at hb
    split at hb
    · obtain rfl := Option.some.inj hb
      exact ha
    · exact h.arrays other b hb

end OneLine

end Store

end SnippetConsole
