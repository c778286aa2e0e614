import FactorSearch.DecimalText

/-!
How much a host can hold. A number is held in words of thirty bits, which take four
bytes each, and both the count of the words and the room for them are limited. An
array of numbers takes eight bytes an item; its length, its size and the room for
it are limited. How much room there is for one number or one array is up to the host.
-/

namespace FactorSearch

inductive CapacityError where
  | tooManyDigits
  | outOfMemory
  | tooLong
  | tooBig
  | noRoom (items : Nat)
deriving DecidableEq

namespace Capacity

def mostWords : Nat := 2305843009213693945

/-- The bytes that a host has for one number or one array, unless it says otherwise. -/
def usualRoom : Nat := Nat.pow 2 35

def wordsOfPower (k : Nat) : Nat := k / 30 + (if k % 30 = 0 then 1 else 2)

/-- Whether the power of two with an exponent can be formed. -/
def checkPower (room k : Nat) : Except CapacityError Unit :=
  if mostWords < wordsOfPower k then .error .tooManyDigits
  else if room < 4 * wordsOfPower k then .error .outOfMemory
  else .ok ()

/-- Whether a number has at most so many binary digits. -/
def fits (width n : Nat) : Bool := n == 0 || decide (n.log2 < width)

theorem fits_iff (width n : Nat) : fits width n = true ↔ n < Nat.pow 2 width := by
  by_cases h : n = 0
  · subst h
    exact ⟨fun _ => Nat.pow_pos (by omega), fun _ => rfl⟩
  · simpa [fits, h] using Nat.log2_lt h

/-- The bound of all lengths and of all sizes in bytes. -/
def lengthBound : Nat := Nat.pow 2 63

/-- Whether a length can be written at all. -/
def checkLength (n : Int) : Except CapacityError Unit :=
  if n < -(lengthBound : Int) ∨ (lengthBound : Int) ≤ n then .error .tooLong else .ok ()

/-- Whether there can be an array of so many items. -/
def checkArray (room items : Nat) : Except CapacityError Unit :=
  if lengthBound ≤ 8 * items then .error .tooBig
  else if room < 8 * items then .error (.noRoom items)
  else .ok ()

def units : List String := ["bytes", "KiB", "MiB", "GiB", "TiB", "PiB", "EiB"]

/-- Three digits, and more only before the point. -/
def threeDigits (x : Binary64) : String :=
  match ([2, 1].map (fun places => DecimalText.fixed places x)).find? (fun s => s.length = 4) with
  | some s => s
  | none => DecimalText.fixed 0 x ++ "."

/-- So many bytes in steps of 1024. -/
def scaled (bytes step : Nat) : Binary64 := Binary64.ofQuotient false bytes (Nat.pow 1024 step)

/-- A number of bytes in the largest unit that fits, also after rounding. -/
def sizeText (bytes : Nat) : String :=
  let step := bytes.log2 / 10
  let step := if DecimalText.fixed 0 (scaled bytes step) = "1024" then step + 1 else step
  threeDigits (scaled bytes step) ++ " " ++ units.getD step ""

end Capacity

namespace CapacityError

def message : CapacityError → String
  | .tooManyDigits => "too many digits in integer"
  | .outOfMemory => ""
  | .tooLong => "Maximum allowed dimension exceeded"
  | .tooBig =>
    "array is too big; \x60arr.size * arr.dtype.itemsize\x60 is larger than the maximum possible size."
  | .noRoom items =>
    "Unable to allocate " ++ Capacity.sizeText (8 * items) ++ " for an array with shape ("
      ++ toString items ++ ",) and data type int64"

end CapacityError

end FactorSearch
