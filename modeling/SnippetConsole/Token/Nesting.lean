import SnippetConsole.Token.Basic

/-!
# Brackets in a run of tokens

The depth counts every opening bracket as one step up and every closing bracket
as one step down, whatever their shapes. A run is balanced when its depth never
falls below zero and ends at zero; a bracket closes where the depth first comes
back to zero; a separator at depth zero divides the run.

The depth is an integer without bounds. It is what a signed counter of thirty-two
bits shows as long as fewer than `2 ^ 31` brackets of a run are open, or closed
without having been opened.

* `untilClosed_append` — what is inside, the closing token and what follows make
  up the run.
* `splitAtTop_ne_nil` — a run has at least one part.
-/

namespace SnippetConsole

/-- How a kind changes the depth. -/
def Kind.slope : Kind → Int
  | .opening _ => 1
  | .closing _ => -1
  | _ => 0

/-- How a run changes the depth. -/
def height (ts : List Token) : Int := ts.foldr (fun t h => t.kind.slope + h) 0

@[simp] theorem height_nil : height [] = 0 := rfl

@[simp] theorem height_cons (t : Token) (ts : List Token) :
    height (t :: ts) = t.kind.slope + height ts := rfl

@[simp] theorem height_append (a b : List Token) : height (a ++ b) = height a + height b := by
  induction a with
  | nil => simp
  | cons t ts ih => simp [ih, Int.add_assoc]

/-- Starting at a depth, the run stays at zero or above and ends at zero. -/
def balancedFrom (depth : Int) : List Token → Bool
  | [] => depth == 0
  | t :: ts => 0 ≤ depth + t.kind.slope && balancedFrom (depth + t.kind.slope) ts

/-- Every bracket is closed within the run, and none before it is opened. -/
def balanced (ts : List Token) : Bool := balancedFrom 0 ts

/-- The tokens before the one that brings the depth to zero, that token, and
those after it. There are none if the depth falls below zero first. -/
def untilClosed (depth : Int) : List Token → Option (List Token × Token × List Token)
  | [] => none
  | t :: ts =>
    let depth := depth + t.kind.slope
    if depth = 0 then some ([], t, ts)
    else if depth < 0 then none
    else (untilClosed depth ts).map fun (inside, closer, after) => (t :: inside, closer, after)

theorem untilClosed_append {depth : Int} {ts inside after : List Token} {closer : Token}
    (h : untilClosed depth ts = some (inside, closer, after)) :
    inside ++ closer :: after = ts := by
  fun_induction untilClosed depth ts generalizing inside with
  | case1 => simp at h
  | case2 => simp_all
  | case3 => simp at h
  | case4 =>
    rename_i ih
    obtain ⟨⟨i, c, a⟩, h', he⟩ := Option.map_eq_some_iff.1 h
    simp only [Prod.mk.injEq] at he
    obtain ⟨rfl, rfl, rfl⟩ := he
    simp [ih h']

/-- The inside of a bracket whose opening token has just been read, and what
follows its closing token. -/
def bracketed? (ts : List Token) : Option (List Token × List Token) :=
  (untilClosed 1 ts).map fun (inside, _, after) => (inside, after)

/-- The inside of a bracket that closes at the end of the run, its opening token
having been read. -/
def enclosed? (ts : List Token) : Option (List Token) :=
  match bracketed? ts with
  | some (inside, []) => some inside
  | _ => none

/-- The position of the token that closes the bracket at position `opener`. -/
def closer? (ts : List Token) (opener : Nat) : Option Nat :=
  (untilClosed 0 (ts.drop opener)).map fun (inside, _, _) => opener + inside.length

/-- Starting at a depth, the parts of a run between its separators at depth zero. -/
def splitFrom (separator : Kind) (depth : Int) : List Token → List (List Token)
  | [] => [[]]
  | t :: ts =>
    if depth = 0 ∧ t.kind = separator then [] :: splitFrom separator depth ts
    else (splitFrom separator (depth + t.kind.slope) ts).modifyHead (t :: ·)

/-- The parts of a run between its separators outside brackets, empty parts
included. -/
def splitAtTop (separator : Kind) (ts : List Token) : List (List Token) :=
  splitFrom separator 0 ts

theorem splitFrom_ne_nil (separator : Kind) (depth : Int) (ts : List Token) :
    splitFrom separator depth ts ≠ [] := by
  fun_induction splitFrom separator depth ts with
  | case1 => simp
  | case2 => simp
  | case3 depth t ts _ ih =>
    cases h : splitFrom separator (depth + t.kind.slope) ts with
    | nil => exact absurd h ih
    | cons part parts => simp

theorem splitAtTop_ne_nil (separator : Kind) (ts : List Token) : splitAtTop separator ts ≠ [] :=
  splitFrom_ne_nil separator 0 ts

end SnippetConsole
