/-!
# The parts of a double

A finite double is a sign, a whole mantissa and a power of two. Its decimal
text and its reading as a whole number are both decided on these parts, in
exact arithmetic.

* `Double.natural?` — the natural number that a double is, if it is one.
-/

namespace SnippetConsole.Decimal

/-- A double by its parts: a finite one is `± mantissa · 2 ^ exponent`. -/
inductive Double
  | finite (negative : Bool) (mantissa : Nat) (exponent : Int)
  | infinite (negative : Bool)
  | notANumber
  deriving DecidableEq, Repr

namespace Double

/-- The exponent shared by zero and the numbers below the normal ones. -/
def lowestExponent : Int := -1074

/-- The first bit of a normal mantissa, which is not stored: two to the power of
fifty-two. -/
def mantissaUnit : Nat := 0x10000000000000

/-- Reads the sign, the eleven exponent bits and the fifty-two mantissa bits. -/
def ofBits (bits : Nat) : Double :=
  let negative := bits / 0x8000000000000000 % 2 == 1
  let mantissa := bits % mantissaUnit
  match bits / mantissaUnit % 2048 with
  | 0 => .finite negative mantissa lowestExponent
  | 2047 => if mantissa = 0 then .infinite negative else .notANumber
  | e => .finite negative (mantissaUnit + mantissa) (e + lowestExponent - 1)

/-- The parts of a double. -/
def ofFloat (x : Float) : Double := ofBits x.toBits.toNat

/-- The natural number equal to the double; zero of either sign is one. -/
def natural? : Double → Option Nat
  | .finite negative mantissa exponent =>
    if negative ∧ mantissa ≠ 0 then none
    else if 0 ≤ exponent then some (mantissa * Nat.pow 2 exponent.toNat)
    else
      let unit := Nat.pow 2 exponent.natAbs
      if mantissa % unit = 0 then some (mantissa / unit) else none
  | .infinite _ => none
  | .notANumber => none

end Double

end SnippetConsole.Decimal
