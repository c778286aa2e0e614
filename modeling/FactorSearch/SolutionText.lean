import FactorSearch.Table
import FactorSearch.ProblemText

/-!
The text of a recorded solution. After the word for a satisfiable problem every
decimal number that does not begin with a zero is a signed variable, whatever
stands between; any other text records no solution. The written form lists the
variables in increasing order and ends with a zero.
-/

namespace FactorSearch

open Text

inductive SolutionError where
  | bothWays (var : Int) (source : Option String)
  | tooLong (digits : Nat)
deriving DecidableEq

namespace SolutionError

def message : SolutionError → String
  | .bothWays v source =>
    sourceName source ++ ": variable " ++ toString v ++ " is assigned both ways"
  | .tooLong digits => IntegerError.message (.tooLong digits)

end SolutionError

namespace SolutionText

/-- A number in a text: its sign and its digits. -/
structure Numeral where
  negative : Bool
  digits : List Char

/-- The numerals of a text. `open?` is the numeral begun so far, its digits in
reverse, and `minus` tells whether a minus sign has just been read. -/
def numeralsFrom (open? : Option Numeral) (minus : Bool) : List Char → List Numeral
  | [] => (open?.map (fun n => { n with digits := n.digits.reverse })).toList
  | c :: rest =>
    match open? with
    | some n =>
      if c.isDigit then numeralsFrom (some { n with digits := c :: n.digits }) false rest
      else { n with digits := n.digits.reverse } :: numeralsFrom none (c == '-') rest
    | none =>
      if c.isDigit && c != '0' then numeralsFrom (some ⟨minus, [c]⟩) false rest
      else numeralsFrom none (c == '-') rest

def numerals (cs : List Char) : List Numeral := numeralsFrom none false cs

def assign (source : Option String) (t : Table Int Bool) :
    List Numeral → Except SolutionError (Table Int Bool)
  | [] => .ok t
  | n :: rest =>
    if digitLimit < n.digits.length then .error (.tooLong n.digits.length)
    else
      let v : Int := plainValue n.digits
      match t.get? v with
      | some b =>
        if b = !n.negative then assign source t rest else .error (.bothWays v source)
      | none => assign source (t.insert v (!n.negative)) rest

/-- The recorded assignment, if the text records one. -/
def parse (source : Option String) (text : List Char) :
    Except SolutionError (Option (Table Int Bool)) :=
  if "SAT".toList.isPrefixOf text then some <$> assign source Table.empty (numerals text)
  else .ok none

def signedText (e : Int × Bool) : String := toString (if e.2 then e.1 else -e.1)

def write : Option (Table Int Bool) → String
  | none => "UNSAT\n"
  | some t => "SAT\n" ++ " ".intercalate (t.sorted.map signedText ++ ["0"]) ++ "\n"

end SolutionText

end FactorSearch
