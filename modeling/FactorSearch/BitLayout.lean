import FactorSearch.Table

/-!
Which variables carry the bits of the three numbers of a multiplication, the
most significant bit first, and the number that an assignment gives to them.
-/

namespace FactorSearch

inductive Operand where
  | output
  | first
  | second
deriving DecidableEq

structure BitLayout where
  output : List Int
  first : List Int
  second : List Int
deriving DecidableEq

/-- A bit whose variable has no value. -/
structure MissingBit where
  var : Int
deriving DecidableEq

namespace Operand

def all : List Operand := [.output, .first, .second]

def label : Operand → String
  | .output => "output"
  | .first => "first input"
  | .second => "second input"

end Operand

namespace MissingBit

def message (e : MissingBit) : String :=
  "variable " ++ toString e.var ++ " has no value in the assignment"

end MissingBit

namespace BitLayout

def bits (layout : BitLayout) : Operand → List Int
  | .output => layout.output
  | .first => layout.first
  | .second => layout.second

def numberFrom (values : Table Int Bool) (high : Nat) : List Int → Except MissingBit Nat
  | [] => .ok high
  | v :: rest =>
    match values.get? v with
    | none => .error ⟨v⟩
    | some b => numberFrom values (2 * high + (if b then 1 else 0)) rest

/-- The number whose binary digits are the values of the variables. -/
def number (values : Table Int Bool) (vars : List Int) : Except MissingBit Nat :=
  numberFrom values 0 vars

end BitLayout

end FactorSearch
