/-!
Signed references to Boolean variables. Every literal names a positive
variable, so its signed integer determines it and is never zero.
-/

namespace FactorSearch

@[ext]
structure Literal where
  var : Int
  positive : Bool
  var_pos : 0 < var
deriving DecidableEq

inductive LiteralError where
  | nonPositive (var : Int)
  | zero
deriving DecidableEq

namespace LiteralError

def message : LiteralError → String
  | .nonPositive v => "Variable ids must be positive, got " ++ toString v ++ "."
  | .zero => "0 terminates a clause and is not a literal."

end LiteralError

namespace Literal

def ofVar (v : Int) (positive : Bool) : Except LiteralError Literal :=
  if h : 0 < v then .ok ⟨v, positive, h⟩ else .error (.nonPositive v)

/-- The literal written as a signed integer: its variable is the absolute value. -/
def ofInt (n : Int) : Except LiteralError Literal :=
  if h : n = 0 then .error .zero
  else .ok ⟨n.natAbs, decide (0 < n), by omega⟩

def toInt (l : Literal) : Int := if l.positive then l.var else -l.var

def negate (l : Literal) : Literal := ⟨l.var, !l.positive, l.var_pos⟩

/-- A number for each literal: a positive one has its variable, a negative one
lies below zero, one further than its variable. -/
def code (l : Literal) : Int := if l.positive then l.var else -l.var - 1

def text (l : Literal) : String := toString l.toInt

def describe (l : Literal) : String :=
  "Literal(" ++ toString l.var ++ ", " ++ (if l.positive then "True" else "False") ++ ")"

theorem ofInt_toInt (l : Literal) : ofInt l.toInt = .ok l := by
  obtain ⟨v, p, hp⟩ := l
  cases p with
  | false =>
    have h1 : ((-v).natAbs : Int) = v := by omega
    have h2 : ¬ 0 < -v := by omega
    have h3 : ¬ -v = 0 := by omega
    simp only [ofInt, toInt, Bool.false_eq_true, if_false, h3, dif_neg, not_false_eq_true,
      h1, h2, decide_false]
  | true =>
    have h1 : (v.natAbs : Int) = v := by omega
    have h3 : ¬ v = 0 := by omega
    simp only [ofInt, toInt, if_true, h3, dif_neg, not_false_eq_true, h1, hp, decide_true]

@[simp] theorem negate_negate (l : Literal) : l.negate.negate = l := by
  simp [negate]

@[simp] theorem negate_var (l : Literal) : l.negate.var = l.var := rfl

@[simp] theorem negate_positive (l : Literal) : l.negate.positive = !l.positive := rfl

/-- Two literals on a variable are the same or each other's negations. -/
theorem negate_eq_of_var_eq {l m : Literal} (hvar : m.var = l.var) (hne : m ≠ l) :
    m.negate = l := by
  have hpositive : l.positive ≠ m.positive := fun h => hne (Literal.ext hvar h.symm)
  exact Literal.ext hvar (Bool.eq_not.2 hpositive).symm

end Literal

end FactorSearch
