import FactorSearch.DecimalText
import FactorSearch.Text.Integer

/-!
Decimal numbers as people write them: surrounding blanks, one sign, digits of
any script with a point among or beside them, single underscores between digits,
and a power of ten; also the words for infinity and for no number.
-/

namespace FactorSearch.Text

/-- Digits of any script become those of ours, wide blanks become spaces. -/
def plainChar (c : Char) : Char :=
  match numeralChar c with
  | .digit d => Char.ofNat (48 + d)
  | .blank => ' '
  | _ => c

/-- Drop underscores, each of which must stand between two digits. -/
def dropUnderscores? (afterDigit : Bool) : List Char → Option (List Char)
  | [] => some []
  | '_' :: rest =>
    if afterDigit && (rest.head?.map Char.isDigit).getD false then dropUnderscores? false rest
    else none
  | c :: rest => (c :: ·) <$> dropUnderscores? (Char.isDigit c) rest

/-- The power of ten at the end of a number; no text stands for none. -/
def exponent? : List Char → Option Int
  | [] => some 0
  | e :: rest =>
    if e = 'e' ∨ e = 'E' then
      let (negative, ds) := match rest with
        | '-' :: ds => (true, ds)
        | '+' :: ds => (false, ds)
        | ds => (false, ds)
      if ds.isEmpty || !ds.all Char.isDigit then none
      else some (if negative then -(plainValue ds : Int) else plainValue ds)
    else none

def unsigned? (negative : Bool) (cs : List Char) : Option Binary64 :=
  let word := String.ofList (cs.map Char.toLower)
  if word = "inf" ∨ word = "infinity" then some (.infinite negative)
  else if word = "nan" then some .nan
  else
    let whole := cs.takeWhile Char.isDigit
    let rest := cs.dropWhile Char.isDigit
    let (places, rest) := match rest with
      | '.' :: more => (more.takeWhile Char.isDigit, more.dropWhile Char.isDigit)
      | rest => ([], rest)
    if whole.isEmpty && places.isEmpty then none
    else
      (exponent? rest).map fun e =>
        DecimalText.ofDecimal negative (plainValue (whole ++ places)) (e - places.length)

def parseDecimal? (cs : List Char) : Option Binary64 :=
  match dropUnderscores? false (stripBy (numeralChar · = .blank) (cs.map plainChar)) with
  | some ('-' :: rest) => unsigned? true rest
  | some ('+' :: rest) => unsigned? false rest
  | some rest => unsigned? false rest
  | none => none

end FactorSearch.Text
