import FactorSearch.Binary64
import FactorSearch.Node

/-!
How much of a search lies behind: the share of the variables that are fixed. The
share is the quotient of the literals fixed and of these together with the
variables still open, and one if there are neither.
-/

namespace FactorSearch.Progress

def share (behind total : Nat) : Binary64 :=
  if total = 0 then Binary64.ofInt 1 else Binary64.ofQuotient false behind total

def estimate (n : Node) : Binary64 := share n.progress.1 n.progress.2

/-- The share in whole percent. -/
def percent? (x : Binary64) : Option Int := (x.scale 100).truncate?

end FactorSearch.Progress
