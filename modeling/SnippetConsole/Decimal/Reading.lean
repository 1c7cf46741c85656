/-!
# Reading decimal text

The readers here round once, to the nearest double, whatever the number of
digits. `ofDigits` reads the literals of a snippet, `read?` free-standing
decimal text with sign, exponent and the names of the special numbers.
-/

namespace SnippetConsole.Decimal

/-- The number whose decimal digits are given; other characters count as zero. -/
def natOfDigits (ds : List Char) : Nat := ds.foldl (fun n c => n * 10 + (c.toNat - '0'.toNat)) 0

/-- The double nearest to `coefficient · 10 ^ exponent`. -/
def ofCoefficient (coefficient : Nat) (exponent : Int) : Float :=
  Float.ofScientific coefficient (exponent < 0) exponent.natAbs

/-- The double nearest to the digits with a point before the fraction. -/
def ofDigits (whole fraction : List Char) : Float :=
  ofCoefficient (natOfDigits (whole ++ fraction)) (-fraction.length)

/-- A sign in front of the rest of a text. -/
def takeSign : List Char → Bool × List Char
  | '-' :: rest => (true, rest)
  | '+' :: rest => (false, rest)
  | rest => (false, rest)

/-- An exponent `e12`, `E+3` or `e-7`, or nothing, up to the end of the text. -/
def readExponent? : List Char → Option Int
  | [] => some 0
  | c :: rest =>
    let (negative, ds) := takeSign rest
    if (c = 'e' ∨ c = 'E') ∧ ds ≠ [] ∧ ds.all Char.isDigit then
      let n : Int := natOfDigits ds
      some (if negative then -n else n)
    else none

/-- Digits with at most one point among or beside them, then an exponent. -/
def readMagnitude? (cs : List Char) : Option Float :=
  let (whole, rest) := cs.span Char.isDigit
  let (fraction, rest) := match rest with
    | '.' :: rest => rest.span Char.isDigit
    | rest => ([], rest)
  if whole = [] ∧ fraction = [] then none
  else (readExponent? rest).map fun e =>
    ofCoefficient (natOfDigits (whole ++ fraction)) (e - fraction.length)

/-- A decimal number with an optional sign, or one of the names `inf`,
`infinity` and `nan` in letters of either case. -/
def read? (text : String) : Option Float :=
  let (negative, cs) := takeSign text.toList
  let magnitude :=
    match String.ofList (cs.map Char.toLower) with
    | "inf" => some (1.0 / 0.0)
    | "infinity" => some (1.0 / 0.0)
    | "nan" => some (0.0 / 0.0)
    | _ => readMagnitude? cs
  magnitude.map fun x => if negative then -x else x

end SnippetConsole.Decimal
