import FactorSearch.Binary64

/-!
Decimal text of floating-point numbers: a fixed number of places, rounded from
the exact value, or the fewest digits that read back as the same number.
-/

namespace FactorSearch.DecimalText

open Binary64

/-- Digits before and after the point, for a count of units of `10 ^ -places`. -/
def pointed (units places : Nat) : String :=
  if places = 0 then toString units
  else
    let digits := (toString units).toList
    let padded := List.replicate (places + 1 - digits.length) '0' ++ digits
    let whole := padded.length - places
    String.ofList (padded.take whole ++ '.' :: padded.drop whole)

/-- The number with a fixed count of places; a tie goes to the even last digit. -/
def fixed (places : Nat) : Binary64 → String
  | .finite negative m e =>
    let (a, b) := quotient m e
    (if negative then "-" else "") ++ pointed (roundDiv (a * Nat.pow 10 places) b) places
  | .infinite negative => if negative then "-inf" else "inf"
  | .nan => "nan"

/-- `digits * 10 ^ exponent` as a quotient of naturals. -/
def decimalQuotient (digits : Nat) (exponent : Int) : Nat × Nat :=
  if 0 ≤ exponent then (digits * Nat.pow 10 exponent.toNat, 1)
  else (digits, Nat.pow 10 (-exponent).toNat)

/-- The number nearest to a decimal. Decimals far outside the range are decided
by their order of magnitude alone. -/
def ofDecimal (negative : Bool) (digits : Nat) (exponent : Int) : Binary64 :=
  let magnitude := exponent + (toString digits).length
  if digits = 0 then .finite negative 0 minExponent
  else if 400 < magnitude then .infinite negative
  else if magnitude < -400 then .finite negative 0 minExponent
  else
    let (a, b) := decimalQuotient digits exponent
    ofQuotient negative a b

/-- The power of ten that the value reaches: `10 ^ p ≤ a / b < 10 ^ (p + 1)`. -/
def magnitude (a b : Nat) : Int :=
  if b ≤ a then ((toString (a / b)).length : Int) - 1
  else -(((List.range 330).find? (fun j => b ≤ a * Nat.pow 10 j)).getD 330 : Nat)

/-- Digits and exponent of the decimal of `count` digits nearest to `a / b`,
if one of the two neighbours on that grid reads back as the number. -/
def readable? (m : Nat) (e : Int) (count : Nat) : Option (Nat × Int) :=
  let (a, b) := quotient m e
  let exponent := magnitude a b - count + 1
  let (c, d) := decimalQuotient 1 exponent
  let low := a * d / (b * c)
  let reads (digits : Nat) : Bool := ofDecimal false digits exponent == .finite false m e
  let nearest := roundDiv (a * d) (b * c)
  let other := if nearest = low then low + 1 else low
  if reads nearest then some (nearest, exponent)
  else if reads other then some (other, exponent)
  else none

def stripZeros : Nat → Nat → Int → Nat × Int
  | 0, digits, exponent => (digits, exponent)
  | fuel + 1, digits, exponent =>
    if digits % 10 = 0 && digits != 0 then stripZeros fuel (digits / 10) (exponent + 1)
    else (digits, exponent)

def shortestDigits (m : Nat) (e : Int) : Nat × Int :=
  let found := (List.range 17).findSome? (fun k => readable? m e (k + 1))
  let (digits, exponent) := found.getD (0, 0)
  stripZeros 20 digits exponent

/-- How a report writes a number: positional from `10 ^ -4` up to `10 ^ 16`, with
at least one place, and otherwise with an exponent of at least two digits. -/
def layout (digits : Nat) (exponent : Int) : String :=
  let text := toString digits
  let point : Int := exponent + text.length
  if -4 < point ∧ point ≤ 16 then
    if point ≤ 0 then "0." ++ String.ofList (List.replicate (-point).toNat '0') ++ text
    else if exponent < 0 then pointed digits (-exponent).toNat
    else text ++ String.ofList (List.replicate exponent.toNat '0') ++ ".0"
  else
    let power := point - 1
    let size := toString power.natAbs
    let lead := String.ofList (text.toList.take 1)
    let rest := text.toList.drop 1
    lead ++ (if rest.isEmpty then "" else "." ++ String.ofList rest) ++ "e"
      ++ (if power < 0 then "-" else "+") ++ (if size.length < 2 then "0" ++ size else size)

/-- The fewest digits that read back as the number. -/
def shortest : Binary64 → String
  | .finite negative m e =>
    let body := if m = 0 then "0.0" else
      let (digits, exponent) := shortestDigits m e
      layout digits exponent
    (if negative then "-" else "") ++ body
  | .infinite negative => if negative then "-Infinity" else "Infinity"
  | .nan => "NaN"

end FactorSearch.DecimalText
