import SnippetConsole.Decimal.Layout
import SnippetConsole.Decimal.Reading
import SnippetConsole.Json.Basic

/-!
# JSON numbers

A number is written with the fewest digits that read back, with a point also for
whole numbers, and with an exponent below `1e-5` and from `1e16` on; a double
that is not finite is written as `null`.

Reading is less exact than writing: the digits are gathered as long as they fit
sixty-four bits, and the result is scaled by a power of ten in floating point.
-/

namespace SnippetConsole.Json

/-- How doubles are written. -/
def layout : Decimal.Layout where
  tie := .even
  wholePoint := true
  signedZero := true
  positional := some (-4, 16)
  positiveInfinity := "null"
  negativeInfinity := "null"
  notANumber := "null"

/-- The parts of a number: the digits before and after the point, and the
exponent. -/
structure Numeral where
  negative : Bool
  whole : List Char
  fraction : List Char
  exponent : Option Int
  deriving DecidableEq, Repr

/-- At least one digit. -/
def digits? : Reader (List Char) := fun cs =>
  let ds := cs.takeWhile Char.isDigit
  if ds = [] then none else some (ds, cs.dropWhile Char.isDigit)

/-- Digits without a zero in front of others. -/
def whole? : Reader (List Char) := fun cs => do
  let (ds, rest) ← digits? cs
  if ds.head? = some '0' ∧ 1 < ds.length then none else some (ds, rest)

/-- The digits after a point; none if there is no point. -/
def fraction? : Reader (List Char)
  | '.' :: cs => digits? cs
  | cs => some ([], cs)

/-- A signed exponent after the letter, if there is one. -/
def exponent? : Reader (Option Int)
  | [] => some (none, [])
  | c :: cs =>
    if c = 'e' ∨ c = 'E' then do
      let (negative, cs) := Decimal.takeSign cs
      let (ds, rest) ← digits? cs
      let n : Int := Decimal.natOfDigits ds
      return (some (if negative then -n else n), rest)
    else some (none, c :: cs)

/-- A number at the front of a text. -/
def numeral? : Reader Numeral := fun cs => do
  let (negative, cs) := match cs with
    | '-' :: cs => (true, cs)
    | cs => (false, cs)
  let (whole, cs) ← whole? cs
  let (fraction, cs) ← fraction? cs
  let (exponent, cs) ← exponent? cs
  return (⟨negative, whole, fraction, exponent⟩, cs)

/-- The number that makes up a whole text. -/
def Numeral.ofText? (text : String) : Option Numeral :=
  match numeral? text.toList with
  | some (n, []) => some n
  | _ => none

/-! ## Natural numbers -/

/-- The greatest number of sixty-four bits. -/
def greatestWord : Nat := 0xFFFFFFFFFFFFFFFF

/-- A number written with digits alone, if it fits sixty-four bits. -/
def Numeral.natural? (n : Numeral) : Option Nat :=
  if n.negative ∨ n.fraction ≠ [] ∨ n.exponent.isSome then none
  else
    let value := Decimal.natOfDigits n.whole
    if value ≤ greatestWord then some value else none

/-! ## Doubles -/

/-- Appends digits to a number as long as it fits sixty-four bits, and counts the
digits that are left. -/
def gather (value : Nat) : List Char → Nat × Nat
  | [] => (value, 0)
  | c :: cs =>
    let next := value * 10 + (c.toNat - 48)
    if next ≤ greatestWord then gather next cs else (value, cs.length + 1)

/-- The double nearest to a power of ten. -/
def powerOfTen (n : Nat) : Float := Float.ofScientific 1 false n

/-- The greatest power of ten that is a double. -/
def greatestPower : Nat := 308

/-- Divides by powers of ten, at most `greatestPower` at a time. -/
def scaleDown (x : Float) (n : Nat) : Float :=
  if n ≤ greatestPower then x / powerOfTen n
  else if x == 0 then x
  else scaleDown (x / powerOfTen greatestPower) (n - greatestPower)
termination_by n
decreasing_by simp [greatestPower] at *; omega

/-- Scales by a power of ten; there is no result beyond the greatest double. -/
def scale? (x : Float) (exponent : Int) : Option Float :=
  if exponent < 0 then some (scaleDown x exponent.natAbs)
  else if exponent ≤ greatestPower then
    let y := x * powerOfTen exponent.toNat
    if y.isInf then none else some y
  else if x == 0 then some x
  else none

/-- The double that a number is read as, if it is in range. -/
def Numeral.float? (n : Numeral) : Option Float :=
  let (value, left) := gather 0 n.whole
  let (value, unread) := gather value n.fraction
  let exponent := n.exponent.getD 0 + left - (n.fraction.length - unread : Nat)
  (scale? (Float.ofNat value) exponent).map fun x => if n.negative then -x else x

end SnippetConsole.Json
