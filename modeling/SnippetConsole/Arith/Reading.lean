import SnippetConsole.Token.Basic

/-!
# Reading arithmetic

The grammar, over the kinds of a run of tokens:

* a sum is products joined by `+` and `-`;
* a product is signed numbers joined by `*` and `/`;
* a signed number is a sign before a signed number, a number, or a sum in round
  brackets.

Joined operands associate to the left. A plus sign and brackets leave no trace
in the tree. At most `deepest` signs and brackets may be open at once; the length
of sums and products is not limited.
-/

namespace SnippetConsole

/-- How many signs and brackets may be open at once. -/
def deepest : Nat := 32

namespace Arith

/-- Reads a tree off the front of a run. -/
abbrev Reader := List Kind → Option (Tree × List Kind)

/-- The operators that join products. -/
def additive : Kind → Option Operator
  | .operator .add => some .add
  | .operator .sub => some .sub
  | _ => none

/-- The operators that join signed numbers. -/
def multiplicative : Kind → Option Operator
  | .operator .mul => some .mul
  | .operator .div => some .div
  | _ => none

/-- Joins further operands to the tree on the left, as long as an operator
follows. Every round uses up the operator, so a run of `rounds` kinds is read to
its end. -/
def joinMore (joins : Kind → Option Operator) (operand : Reader) :
    (rounds : Nat) → Tree → Reader
  | 0, left, ks => some (left, ks)
  | _ + 1, left, [] => some (left, [])
  | rounds + 1, left, k :: ks =>
    match joins k with
    | none => some (left, k :: ks)
    | some op => do
      let (right, rest) ← operand ks
      joinMore joins operand rounds (.binary op left right) rest

/-- Operands joined by operators, associated to the left. -/
def joined (joins : Kind → Option Operator) (operand : Reader) : Reader := fun ks => do
  let (left, rest) ← operand ks
  joinMore joins operand rest.length left rest

/-- A sum of products of what `operand` reads. -/
def sumOf (operand : Reader) : Reader := joined additive (joined multiplicative operand)

/-- A signed number with room for so many signs and brackets. -/
def signed : (room : Nat) → Reader
  | 0, .number x :: ks => some (.number x, ks)
  | 0, _ => none
  | room + 1, ks =>
    match ks with
    | .operator .sub :: ks => (signed room ks).map fun (inner, rest) => (.neg inner, rest)
    | .operator .add :: ks => signed room ks
    | .number x :: ks => some (.number x, ks)
    | .opening .round :: ks =>
      match sumOf (signed room) ks with
      | some (inner, .closing .round :: rest) => some (inner, rest)
      | _ => none
    | _ => none

end Arith

/-- The tree of a whole run of kinds, if the run is one sum. -/
def Tree.ofKinds? (ks : List Kind) : Option Tree :=
  match Arith.sumOf (Arith.signed deepest) ks with
  | some (tree, []) => some tree
  | _ => none

end SnippetConsole
