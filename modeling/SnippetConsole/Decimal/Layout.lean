import SnippetConsole.Decimal.Shortest

/-!
# Writing a double

The digits of a number are always the shortest that read back. A `Layout` says
the rest: where positional notation ends, whether whole numbers end in `.0`,
and how zero and the numbers that are not finite are spelled.
-/

namespace SnippetConsole.Decimal

/-- How digits are laid out as text. -/
structure Layout where
  /-- Which of two equally near decimals is written. -/
  tie : Tie
  /-- Whole numbers end in `.0`. -/
  wholePoint : Bool
  /-- Negative zero is written with its sign. -/
  signedZero : Bool
  /-- The least and greatest number of digits before the point in positional
  notation; without them every number is positional. -/
  positional : Option (Int × Int)
  positiveInfinity : String
  negativeInfinity : String
  notANumber : String

/-- The decimal digits of a natural number, most significant first. -/
def digits (n : Nat) : List Char := Nat.toDigits 10 n

def zeros (n : Nat) : List Char := List.replicate n '0'

/-- Digits with the point after the first `point` of them, filled up with zeros. -/
def placePoint (wholePoint : Bool) (ds : List Char) (point : Int) : List Char :=
  if point ≤ 0 then ['0', '.'] ++ zeros (-point).toNat ++ ds
  else if point < ds.length then ds.take point.toNat ++ '.' :: ds.drop point.toNat
  else ds ++ zeros (point - ds.length).toNat ++ if wholePoint then ['.', '0'] else []

/-- One digit before the point and a signed exponent. -/
def placeExponent (ds : List Char) (point : Int) : List Char :=
  let fraction := match ds.drop 1 with
    | [] => []
    | rest => '.' :: rest
  let power := point - 1
  ds.take 1 ++ fraction ++ ['e', if power < 0 then '-' else '+'] ++ digits power.natAbs

/-- The magnitude of a number that is not zero. -/
def Layout.magnitude (layout : Layout) (d : Scientific) : List Char :=
  let ds := digits d.coefficient
  let point := ds.length + d.exponent
  match layout.positional with
  | none => placePoint layout.wholePoint ds point
  | some (least, greatest) =>
    if least ≤ point ∧ point ≤ greatest then placePoint layout.wholePoint ds point
    else placeExponent ds point

/-- The text of a double. -/
def Layout.write (layout : Layout) (x : Float) : String :=
  match Double.ofFloat x with
  | .notANumber => layout.notANumber
  | .infinite false => layout.positiveInfinity
  | .infinite true => layout.negativeInfinity
  | .finite negative mantissa exponent =>
    let zero := mantissa = 0
    let sign := if negative ∧ (¬ zero ∨ layout.signedZero) then ['-'] else []
    let body :=
      if zero then placePoint layout.wholePoint ['0'] 1
      else layout.magnitude (shortest layout.tie mantissa exponent)
    String.ofList (sign ++ body)

/-- Every digit in its place, however large or small the number. -/
def plain : Layout where
  tie := .up
  wholePoint := false
  signedZero := true
  positional := none
  positiveInfinity := "inf"
  negativeInfinity := "-inf"
  notANumber := "NaN"

end SnippetConsole.Decimal
