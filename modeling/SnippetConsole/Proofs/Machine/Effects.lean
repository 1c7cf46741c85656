import SnippetConsole.Machine

/-!
# What a statement does in a store

A statement has no effect, changes the store in one of eight ways or prints a line. Only
the making of an array looks at the limits, and only it can be refused.

* `Statement.effect_makeArray` — an array is made, refused or not asked for.
* `Statement.effect_eq_error` — nothing else is refused.
* `Statement.writes_iff` — the eight ways to change the store.
-/

namespace SnippetConsole

namespace Effect

theorem ofStore?_eq_change_iff {store? : Option Store} {store : Store} :
    ofStore? store? = .change store ↔ store? = some store := by
  cases store? <;> simp [ofStore?]

theorem ofLine?_ne_change (line? : Option String) (store : Store) :
    ofLine? line? ≠ .change store := by
  cases line? <;> simp [ofLine?]

theorem ofLine?_eq_print_iff {line? : Option String} {line : String} :
    ofLine? line? = .print line ↔ line? = some line := by
  cases line? <;> simp [ofLine?]

theorem ofStore?_ne_print (store? : Option Store) (line : String) :
    ofStore? store? ≠ .print line := by
  cases store? <;> simp [ofStore?]

end Effect

/-! ## Arrays and their limit -/

theorem Limits.checkArray_of_le {limits : Limits} {length : Nat}
    (h : length ≤ limits.arrayLength) : limits.checkArray length = .ok () :=
  if_neg (Nat.not_lt.2 h)

theorem Limits.checkArray_of_lt {limits : Limits} {length : Nat}
    (h : limits.arrayLength < length) :
    limits.checkArray length = .error (.arrayTooLarge length limits.arrayLength) :=
  if_pos h

/-- The array that an initializer asks for, whatever the limits. -/
def ArrayInit.wanted? (store : Store) : ArrayInit → Option Slots
  | .sized size => (size.value store).index?.map .unset
  | .items exprs => some (.ofValues (exprs.map (·.value store)))

theorem ArrayInit.slots?_eq (limits : Limits) (store : Store) (init : ArrayInit) :
    init.slots? limits store =
      match init.wanted? store with
      | none => .ok none
      | some a => (limits.checkArray a.size).map fun _ => some a := by
  cases init with
  | sized size =>
    rw [slots?, wanted?]
    cases (size.value store).index? with
    | none => rfl
    | some n => simp
  | items exprs => simp [slots?, wanted?]

theorem ArrayInit.slots?_eq_some_iff {limits : Limits} {store : Store} {init : ArrayInit}
    {a : Slots} : init.slots? limits store = .ok (some a) ↔
      init.wanted? store = some a ∧ a.size ≤ limits.arrayLength := by
  rw [slots?_eq]
  cases init.wanted? store with
  | none => simp
  | some b =>
    by_cases hb : b.size ≤ limits.arrayLength
    · simp only [Limits.checkArray_of_le hb, Except.map, Except.ok.injEq, Option.some.injEq]
      constructor
      · rintro rfl
        exact ⟨rfl, hb⟩
      · exact And.left
    · simp only [Limits.checkArray_of_lt (Nat.lt_of_not_le hb), Except.map, reduceCtorEq,
        Option.some.injEq, false_iff, not_and]
      rintro rfl
      exact hb

namespace Statement

variable {limits : Limits} {store store' : Store} {s : Statement}

theorem effect_makeArray (limits : Limits) (store : Store) (name : String) (init : ArrayInit) :
    (makeArray name init).effect limits store =
      match init.wanted? store with
      | none => .ok .nothing
      | some a =>
        if a.size ≤ limits.arrayLength then .ok (.change (store.putArray name a))
        else .error (.arrayTooLarge a.size limits.arrayLength) := by
  rw [effect, ArrayInit.slots?_eq]
  cases init.wanted? store with
  | none => rfl
  | some a =>
    by_cases hsize : a.size ≤ limits.arrayLength
    · simp only [Limits.checkArray_of_le hsize, if_pos hsize]
      rfl
    · simp only [Limits.checkArray_of_lt (Nat.lt_of_not_le hsize), if_neg hsize]
      rfl

/-- Only an array that is too long keeps a statement from having an effect. -/
theorem effect_eq_error {fault : Fault} (h : s.effect limits store = .error fault) :
    ∃ length, fault = .arrayTooLarge length limits.arrayLength ∧
      limits.arrayLength < length := by
  cases s with
  | makeArray name init =>
    rw [effect_makeArray] at h
    split at h
    · cases h
    · next a _ =>
      split at h
      · cases h
      · next hsize =>
        cases h
        exact ⟨a.size, rfl, Nat.lt_of_not_le hsize⟩
  | print expr => cases expr <;> cases h
  | printSlot | declare | assign | update | step | construct | setField | call | setSlot
  | unrecognized => cases h

/-! ## Changes -/

/-- The store that a statement leaves when it changes the store. -/
inductive Writes (limits : Limits) (store : Store) : Statement → Store → Prop
  | declare {name : String} {expr : Expr} :
      Writes limits store (.declare name expr) (store.define name (expr.value store))
  | assign {name : String} {expr : Expr} {old : Value} : store.get? name = some old →
      Writes limits store (.assign name expr) (store.define name (expr.value store))
  | update {name : String} {op : Operator} {expr : Expr} {old new : Value} :
      store.get? name = some old → updated? op old (expr.value store) = some new →
      Writes limits store (.update name op expr) (store.define name new)
  | step {name : String} {direction : Step} {old : Value} {x : Float} :
      store.get? name = some old → old.number? = some x →
      Writes limits store (.step name direction)
        (store.define name (.number (x + direction.delta)))
  | construct {name className : String} :
      Writes limits store (.construct name className) (store.putObject name (.ofClass className))
  | setField {name field : String} {expr : Expr} {object : Object} :
      store.object? name = some object →
      Writes limits store (.setField name field expr)
        (store.putObject name (object.setField field (expr.value store)))
  | makeArray {name : String} {init : ArrayInit} {a : Slots} :
      init.wanted? store = some a → a.size ≤ limits.arrayLength →
      Writes limits store (.makeArray name init) (store.putArray name a)
  | setSlot {name : String} {index expr : Expr} {i : Nat} {a b : Slots} :
      (index.value store).index? = some i → store.array? name = some a →
      a.write? i (expr.value store) = some b →
      Writes limits store (.setSlot name index expr) (store.putArray name b)

/-- A statement changes the store in one of eight ways. -/
theorem writes_iff :
    s.Writes limits store store' ↔ s.effect limits store = .ok (.change store') := by
  constructor
  · intro h
    cases h with
    | declare | construct => rfl
    | assign hget => simp only [effect, Store.assign?, hget, Option.map_some, Effect.ofStore?]
    | update hget hnew =>
      simp only [effect, hget, Option.bind_some, hnew, Option.map_some, Effect.ofStore?]
    | step hget hx =>
      simp only [effect, hget, Option.bind_some, hx, Option.map_some, Effect.ofStore?]
    | setField hobject =>
      simp only [effect, Store.setField?, hobject, Option.map_some, Effect.ofStore?]
    | makeArray hwanted hsize => simp only [effect_makeArray, hwanted, if_pos hsize]
    | setSlot hindex harray hwrite =>
      simp only [effect, Store.setSlot?, hindex, harray, hwrite, Option.bind_some,
        Option.map_some, Effect.ofStore?]
  · intro h
    cases s with
    | print expr => cases expr <;> cases h
    | printSlot | call => exact absurd (Except.ok.inj h) (Effect.ofLine?_ne_change _ _)
    | unrecognized => cases h
    | declare =>
      cases h
      exact .declare
    | construct =>
      cases h
      exact .construct
    | assign =>
      have h := Effect.ofStore?_eq_change_iff.1 (Except.ok.inj h)
      obtain ⟨old, hget, rfl⟩ := Option.map_eq_some_iff.1 h
      exact .assign hget
    | update =>
      have h := Effect.ofStore?_eq_change_iff.1 (Except.ok.inj h)
      obtain ⟨new, hnew, rfl⟩ := Option.map_eq_some_iff.1 h
      obtain ⟨old, hget, hnew⟩ := Option.bind_eq_some_iff.1 hnew
      exact .update hget hnew
    | step =>
      have h := Effect.ofStore?_eq_change_iff.1 (Except.ok.inj h)
      obtain ⟨x, hx, rfl⟩ := Option.map_eq_some_iff.1 h
      obtain ⟨old, hget, hx⟩ := Option.bind_eq_some_iff.1 hx
      exact .step hget hx
    | setField =>
      have h := Effect.ofStore?_eq_change_iff.1 (Except.ok.inj h)
      obtain ⟨object, hobject, rfl⟩ := Option.map_eq_some_iff.1 h
      exact .setField hobject
    | makeArray =>
      rw [effect_makeArray] at h
      split at h
      · cases h
      · next hwanted =>
        split at h
        · next hsize =>
          cases h
          exact .makeArray hwanted hsize
        · cases h
    | setSlot =>
      have h := Effect.ofStore?_eq_change_iff.1 (Except.ok.inj h)
      obtain ⟨i, hindex, h⟩ := Option.bind_eq_some_iff.1 h
      obtain ⟨a, harray, h⟩ := Option.bind_eq_some_iff.1 h
      obtain ⟨b, hwrite, rfl⟩ := Option.map_eq_some_iff.1 h
      exact .setSlot hindex harray hwrite

/-- Behind a change each array is as long as before or keeps to the limit. -/
theorem Writes.size_of_array? (h : s.Writes limits store store') {name : String} {a : Slots}
    (ha : store'.array? name = some a) :
    a.size ≤ limits.arrayLength ∨ ∃ b, store.array? name = some b ∧ b.size = a.size := by
  cases h with
  | declare | assign | update | step | construct | setField => exact .inr ⟨a, ha, rfl⟩
  | @makeArray other _ _ _ hsize =>
    rw [Store.array?_putArray] at ha
    by_cases hname : other = name
    · rw [if_pos hname] at ha
      obtain rfl := Option.some.inj ha
      exact .inl hsize
    · rw [if_neg hname] at ha
      exact .inr ⟨a, ha, rfl⟩
  | @setSlot other _ _ _ old _ _ hold hwrite =>
    rw [Store.array?_putArray] at ha
    by_cases hname : other = name
    · rw [if_pos hname] at ha
      obtain rfl := Option.some.inj ha
      exact .inr ⟨old, hname ▸ hold, (Slots.size_of_write? hwrite).symm⟩
    · rw [if_neg hname] at ha
      exact .inr ⟨a, ha, rfl⟩

/-! ## Lines -/

/-- The statement prints a line, if it does anything. -/
def prints : Statement → Bool
  | .print _ | .printSlot _ _ | .call _ _ => true
  | _ => false

theorem prints_of_effect {line : String} (h : s.effect limits store = .ok (.print line)) :
    s.prints = true := by
  cases s with
  | print | printSlot | call => rfl
  | declare | construct | unrecognized => cases h
  | assign | update | step | setField | setSlot =>
    exact absurd (Except.ok.inj h) (Effect.ofStore?_ne_print _ _)
  | makeArray name init =>
    rw [effect_makeArray] at h
    split at h
    · cases h
    · split at h
      · cases h
      · cases h

end Statement

end SnippetConsole
