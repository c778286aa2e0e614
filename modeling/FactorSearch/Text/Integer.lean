import FactorSearch.Text.Blank
import FactorSearch.Text.Digit
import FactorSearch.Text.Quoted

/-!
Integers as people write them: surrounding blanks, one sign, decimal digits of
any script, single underscores between digits. Texts with too many digits are
refused, also if something follows the digits.
-/

namespace FactorSearch.Text

def digitLimit : Nat := 4300

inductive IntegerError where
  | malformed (text : List Char)
  | tooLong (digits : Nat)
deriving DecidableEq

namespace IntegerError

def message : IntegerError → String
  | .malformed text =>
    "invalid literal for int() with base 10: " ++ String.ofList ((quoted text).take 200)
  | .tooLong digits =>
    "Exceeds the limit (" ++ toString digitLimit ++ " digits) for integer string conversion: value has "
      ++ toString digits ++ " digits; use sys.set_int_max_str_digits() to increase the limit"

end IntegerError

/-- What a character means in a number. -/
inductive NumeralChar where
  | digit (value : Nat)
  | underscore
  | blank
  | plus
  | minus
  | other
deriving DecidableEq

/-- Blanks are the five controls from the tab on, the space, and the blanks
beyond the first 128 characters. -/
def numeralChar (c : Char) : NumeralChar :=
  if c = '_' then .underscore
  else if c = '+' then .plus
  else if c = '-' then .minus
  else if (9 ≤ c.toNat && c.toNat ≤ 13) || c.toNat == 32 || wideBlanks.contains c.toNat then .blank
  else
    match digit? c with
    | some d => .digit d
    | none => .other

/-- Digits and single underscores between them; what the text goes on with. -/
structure DigitRun where
  digits : List Nat
  rest : List NumeralChar

/-- Read on after a digit. A digit run fails at an underscore that no digit follows. -/
def digitsAfter (done : List Nat) : List NumeralChar → Option DigitRun
  | .digit d :: rest => digitsAfter (d :: done) rest
  | .underscore :: .digit d :: rest => digitsAfter (d :: done) rest
  | .underscore :: _ => none
  | rest => some ⟨done.reverse, rest⟩

def digitRun : List NumeralChar → Option DigitRun
  | .digit d :: rest => digitsAfter [d] rest
  | _ => none

def valueOf (digits : List Nat) : Nat := digits.foldl (fun n d => 10 * n + d) 0

def splitSign : List NumeralChar → Bool × List NumeralChar
  | .minus :: rest => (true, rest)
  | .plus :: rest => (false, rest)
  | rest => (false, rest)

def parseInteger (cs : List Char) : Except IntegerError Int :=
  let (negative, body) := splitSign ((cs.map numeralChar).dropWhile (· = .blank))
  match digitRun body with
  | none => .error (.malformed cs)
  | some run =>
    if digitLimit < run.digits.length then .error (.tooLong run.digits.length)
    else if run.rest.all (· = .blank) then
      .ok (if negative then -(valueOf run.digits : Int) else valueOf run.digits)
    else .error (.malformed cs)

/-- What is said of an integer whose text has too many digits. -/
def longInteger : String :=
  "Exceeds the limit (" ++ toString digitLimit ++ " digits) for integer string conversion; "
    ++ "use sys.set_int_max_str_digits() to increase the limit"

/-- The decimal text of an integer, unless it has too many digits. -/
def integerText? (n : Int) : Option String :=
  let text := toString n.natAbs
  if digitLimit < text.length then none else some (toString n)

end FactorSearch.Text
