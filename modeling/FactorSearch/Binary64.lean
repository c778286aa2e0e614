/-!
Floating-point numbers of 53 significant bits, held as a sign, a mantissa and a
power of two. Quotients and products are exact and then rounded to the nearest
representable number, a tie to the even mantissa.
-/

namespace FactorSearch

inductive Binary64 where
  | finite (negative : Bool) (mantissa : Nat) (exponent : Int)
  | infinite (negative : Bool)
  | nan
deriving DecidableEq

namespace Binary64

/-- The natural number nearest to a quotient, a tie going to the even one. -/
def roundDiv (n d : Nat) : Nat :=
  let q := n / d
  let r := n % d
  if 2 * r < d then q else if d < 2 * r then q + 1 else if q % 2 = 0 then q else q + 1

def maxMantissa : Nat := Nat.pow 2 53

def minExponent : Int := -1074

def maxExponent : Int := 971

/-- `n / d` scaled by a power of two, as a numerator and a denominator. -/
def scaled (n d : Nat) (exponent : Int) : Nat × Nat :=
  if 0 ≤ exponent then (n * Nat.pow 2 exponent.toNat, d)
  else (n, d * Nat.pow 2 (-exponent).toNat)

/-- The exponent that leaves a quotient of 53 bits, or the least one there is. -/
def quotientExponent (n d : Nat) : Int :=
  let low : Int := (n.log2 : Int) - (d.log2 : Int) - 53
  let (a, b) := scaled n d (-low)
  max minExponent (if a < b * maxMantissa then low else low + 1)

/-- The number nearest to a quotient of naturals; the divisor is not zero. -/
def ofQuotient (negative : Bool) (n d : Nat) : Binary64 :=
  if n = 0 then .finite negative 0 minExponent
  else
    let e := quotientExponent n d
    let (a, b) := scaled n d (-e)
    let m := roundDiv a b
    let (m, e) := if m < maxMantissa then (m, e) else (m / 2, e + 1)
    if maxExponent < e then .infinite negative else .finite negative m e

/-- A finite number as an exact quotient of naturals. -/
def quotient (mantissa : Nat) (exponent : Int) : Nat × Nat := scaled mantissa 1 exponent

def ofInt (n : Int) : Binary64 := ofQuotient (decide (n < 0)) n.natAbs 1

/-- The quotient of two integers, if the second is not zero. -/
def ofInts (n d : Int) : Binary64 :=
  ofQuotient (decide (n < 0) != decide (d < 0)) n.natAbs d.natAbs

def isPositive : Binary64 → Bool
  | .finite negative m _ => !negative && m != 0
  | .infinite negative => !negative
  | .nan => false

/-- An integer divided by a number that is not zero. -/
def divide (n : Int) : Binary64 → Binary64
  | .finite negative m e =>
    match ofInt n with
    | .finite negative' m' e' =>
      let (a, b) := quotient m' e'
      let (c, d) := quotient m e
      ofQuotient (negative != negative') (a * d) (b * c)
    | .infinite negative' => .infinite (negative != negative')
    | .nan => .nan
  | .infinite negative => .finite (negative != decide (n < 0)) 0 minExponent
  | .nan => .nan

/-- A number multiplied by a natural number. -/
def scale (k : Nat) : Binary64 → Binary64
  | .finite negative m e =>
    let (a, b) := quotient m e
    ofQuotient negative (a * k) b
  | other => other

/-- The integer part of a finite number, cut toward zero. -/
def truncate? : Binary64 → Option Int
  | .finite negative m e =>
    let (a, b) := quotient m e
    some (if negative then -((a / b : Nat) : Int) else (a / b : Nat))
  | _ => none

def signBit (negative : Bool) : Nat := if negative then Nat.pow 2 63 else 0

/-- The weight of the lowest bit of the exponent. -/
def exponentUnit : Nat := Nat.pow 2 52

/-- The 64 bits of the interchange format: sign, exponent, fraction. -/
def bits : Binary64 → Nat
  | .finite negative m e =>
    if m < exponentUnit then signBit negative + m
    else signBit negative + (e + 1075).toNat * exponentUnit + (m - exponentUnit)
  | .infinite negative => signBit negative + 2047 * exponentUnit
  | .nan => 2047 * exponentUnit + exponentUnit / 2

end Binary64

end FactorSearch
