import SnippetConsole.Decimal.Double

/-!
# The shortest decimal that reads back

Every real closer to a finite double than to its neighbours reads back as that
double; the two midpoints do so when the mantissa is even. Among the decimals
in that interval the shortest one has the fewest digits, and of those with the
fewest digits it is the nearest.

The search walks down the decimal grids `10 ^ k`. On each grid only the two
points next to the value can be the nearest one, and the walk ends at the
latest on the grid that holds the value itself.
-/

namespace SnippetConsole.Decimal

/-- A decimal number `coefficient · 10 ^ exponent`. -/
structure Scientific where
  coefficient : Nat
  exponent : Int
  deriving DecidableEq, Repr

/-- What to do when two decimals are equally near. -/
inductive Tie
  | up
  | even
  deriving DecidableEq, Repr

/-- The value `mantissa · 2 ^ exponent` measured in units of `10 ^ k`, as the
fraction `mantissa * unit / whole`. -/
structure Scale where
  unit : Nat
  whole : Nat

/-- The scale of a power of two on the grid `10 ^ k`. -/
def Scale.of (exponent k : Int) : Scale :=
  ⟨Nat.pow 2 exponent.toNat * Nat.pow 10 (-k).toNat,
    Nat.pow 2 (-exponent).toNat * Nat.pow 10 k.toNat⟩

/-- Four times the distance to the lower midpoint, in units of the mantissa's last
place: the neighbour below a power of two is only half as far away. -/
def lowerGap (mantissa : Nat) (exponent : Int) : Nat :=
  if mantissa = Double.mantissaUnit ∧ Double.lowestExponent < exponent then 1 else 2

/-- The grid point `c` lies in the interval that reads back. -/
def readsBack (mantissa : Nat) (exponent : Int) (scale : Scale) (c : Nat) : Bool :=
  let point := 4 * c * scale.whole
  let low := (4 * mantissa - lowerGap mantissa exponent) * scale.unit
  let high := (4 * mantissa + 2) * scale.unit
  if mantissa % 2 = 0 then low ≤ point && point ≤ high else low < point && point < high

/-- The nearer of the two points around `value / whole`. -/
def nearer (tie : Tie) (value whole : Nat) : Nat :=
  let below := value / whole
  let twice := 2 * (value % whole)
  if twice < whole then below
  else if whole < twice then below + 1
  else match tie with
    | .up => below + 1
    | .even => if below % 2 = 0 then below else below + 1

/-- The point of a grid that reads back, the nearest one if there are two. -/
def gridPoint? (tie : Tie) (mantissa : Nat) (exponent k : Int) : Option Nat :=
  let scale := Scale.of exponent k
  let value := mantissa * scale.unit
  let below := value / scale.whole
  match readsBack mantissa exponent scale below, readsBack mantissa exponent scale (below + 1) with
  | true, true => some (nearer tie value scale.whole)
  | true, false => some below
  | false, true => some (below + 1)
  | false, false => none

/-- Walks down from grid `k`; after `steps` grids the value is a grid point. -/
def shortestFrom (tie : Tie) (mantissa : Nat) (exponent : Int) : (steps : Nat) → Int → Scientific
  | 0, k =>
    let scale := Scale.of exponent k
    ⟨mantissa * scale.unit / scale.whole, k⟩
  | steps + 1, k =>
    match gridPoint? tie mantissa exponent k with
    | some c => ⟨c, k⟩
    | none => shortestFrom tie mantissa exponent steps (k - 1)

/-- A grid whose step is above the value: `30103 / 100000` is just above the
decimal logarithm of two. -/
def topGrid (mantissa : Nat) (exponent : Int) : Int :=
  (exponent + mantissa.log2 + 1) * 30103 / 100000 + 1

/-- The shortest decimal that reads back as `mantissa · 2 ^ exponent`, for a
mantissa that is not zero. -/
def shortest (tie : Tie) (mantissa : Nat) (exponent : Int) : Scientific :=
  let top := topGrid mantissa exponent
  shortestFrom tie mantissa exponent (top - min exponent 0).toNat top

end SnippetConsole.Decimal
