import SnippetConsole.Token.Nesting

/-!
# References and operands

A reference names a value, a field of an object or a slot of an array. For
arithmetic a run is read as operands: each name starts a reference, and all
other tokens stand for themselves.

* `Reference.length_of_read?` — reading a reference leaves a shorter run.
-/

namespace SnippetConsole

/-- What a name and the tokens after it refer to. -/
inductive Reference
  | binding (name : String)
  | member (object field : String)
  | slot (array : String) (index : List Token)
  deriving DecidableEq, Repr

/-- The longest reference at the start of a run, and the rest of the run. A dot
needs a field and a square bracket its closing token. -/
def Reference.read? : List Token → Option (Reference × List Token)
  | ⟨.word object, _⟩ :: ⟨.dot, _⟩ :: ts =>
    match ts with
    | ⟨.word field, _⟩ :: rest => some (.member object field, rest)
    | _ => none
  | ⟨.word array, _⟩ :: ⟨.opening .square, _⟩ :: ts =>
    (bracketed? ts).map fun (index, rest) => (.slot array index, rest)
  | ⟨.word name, _⟩ :: rest => some (.binding name, rest)
  | _ => none

/-- The reference that a whole run makes. -/
def Reference.ofRun? (ts : List Token) : Option Reference :=
  match read? ts with
  | some (reference, []) => some reference
  | _ => none

theorem length_of_bracketed? {ts inside rest : List Token}
    (h : bracketed? ts = some (inside, rest)) : inside.length + rest.length < ts.length := by
  obtain ⟨⟨i, c, a⟩, h', he⟩ := Option.map_eq_some_iff.1 h
  simp only [Prod.mk.injEq] at he
  obtain ⟨rfl, rfl⟩ := he
  rw [← untilClosed_append h']
  simp

theorem Reference.length_of_read? {ts rest : List Token} {r : Reference}
    (h : read? ts = some (r, rest)) : rest.length < ts.length := by
  fun_cases read? ts with
  | case1 => simp_all [read?]; omega
  | case2 => simp_all [read?]
  | case3 =>
    simp only [read?, Option.map_eq_some_iff] at h
    obtain ⟨⟨i, a⟩, h', he⟩ := h
    simp only [Prod.mk.injEq] at he
    obtain ⟨rfl, rfl⟩ := he
    have := length_of_bracketed? h'
    simp; omega
  | case4 => simp_all [read?]
  | case5 => simp_all [read?]

/-- One step of arithmetic before its references are looked up. -/
inductive Operand
  | plain (kind : Kind)
  | ref (reference : Reference)
  /-- A name whose reference is cut short. -/
  | broken
  deriving DecidableEq, Repr

/-- The operands of a run, up to the first broken reference. -/
def operands : List Token → List Operand
  | [] => []
  | t :: ts =>
    match t.kind.name? with
    | none => .plain t.kind :: operands ts
    | some _ =>
      match _h : Reference.read? (t :: ts) with
      | some (reference, rest) => .ref reference :: operands rest
      | none => [.broken]
termination_by ts => ts.length
decreasing_by
  · simp
  · exact Reference.length_of_read? (by assumption)

end SnippetConsole
