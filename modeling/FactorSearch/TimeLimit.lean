import FactorSearch.Binary64

/-!
Time limits of a search, in whole microseconds. A negative number of seconds
stands for no limit, and so does one that no clock reaches; a limit of less than
a microsecond is spent at once.
-/

namespace FactorSearch

/-- A limit in microseconds, if there is one. -/
abbrev TimeLimit := Option Nat

namespace TimeLimit

def ofSeconds : Binary64 → TimeLimit
  | .finite negative m e =>
    if negative && m != 0 then none
    else
      let (a, b) := Binary64.quotient m e
      some (a * 1000000 / b)
  | _ => none

/-- Whether the limit has passed after some microseconds. -/
def passed (limit : TimeLimit) (elapsed : Nat) : Bool :=
  match limit with
  | none => false
  | some t => decide (t ≤ elapsed)

end TimeLimit

end FactorSearch
