import FactorSearch.Text.Printable

/-!
Quoted text, as error messages show it. Single quotes are used unless the text
has one and no double quote. The quote in use and the backslash are escaped,
and so is every character that is not shown as it is.
-/

namespace FactorSearch.Text

def hexDigit (n : Nat) : Char := if n < 10 then Char.ofNat (48 + n) else Char.ofNat (87 + n)

/-- The last digits of a number in base sixteen. -/
def hex : Nat → Nat → List Char
  | 0, _ => []
  | width + 1, n => hex width (n / 16) ++ [hexDigit (n % 16)]

def quoteMark (cs : List Char) : Char :=
  if cs.contains '\'' && !cs.contains '"' then '"' else '\''

def escapeChar (mark c : Char) : List Char :=
  if c = '\\' || c = mark then ['\\', c]
  else if c = '\t' then ['\\', 't']
  else if c = '\n' then ['\\', 'n']
  else if c = '\r' then ['\\', 'r']
  else if isPrintable c then [c]
  else
    let n := c.toNat
    if n < 0x100 then '\\' :: 'x' :: hex 2 n
    else if n < 0x10000 then '\\' :: 'u' :: hex 4 n
    else '\\' :: 'U' :: hex 8 n

def quoted (cs : List Char) : List Char :=
  let mark := quoteMark cs
  mark :: cs.flatMap (escapeChar mark) ++ [mark]

end FactorSearch.Text
