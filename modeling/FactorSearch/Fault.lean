import FactorSearch.FileError
import FactorSearch.Log
import FactorSearch.Multiplier
import FactorSearch.Path
import FactorSearch.Statistics

/-!
Everything that can stop a command once its arguments are understood. A fault of
one problem's files or texts is reported and the next problem goes on; any other
fault ends the command.
-/

namespace FactorSearch

inductive DrawError where
  | negativeSeed
  | negativeShift
  | outOfBounds
  | emptyRange
  | negativeCount
  | capacity (e : CapacityError)
deriving DecidableEq

/-- What a setting without a value was needed for: to name a heuristic, to compare
it with a least or a greatest number, to add it to another number or another number
to it, to shift by it, to make a folder, or to draw so many numbers. -/
inductive BareUse where
  | heuristic
  | atLeast
  | below
  | leftTerm
  | rightTerm
  | shift
  | folder
  | count
deriving DecidableEq

inductive Fault where
  | access (e : AccessError)
  | problem (e : ProblemError)
  | solution (e : SolutionError)
  | factor (e : FactorError)
  | path (e : PathError)
  | emptyName (e : EmptyName)
  | longNumber
  | level (e : UnknownLevel)
  | multiplication (e : MultiplicationError)
  | draw (e : DrawError)
  | bare (use : BareUse)
  | statistics (e : CountTooLarge)

namespace DrawError

def message : DrawError → String
  | .negativeSeed => "expected non-negative integer"
  | .negativeShift => "negative shift count"
  | .outOfBounds => "high is out of bounds for int64"
  | .emptyRange => "low >= high"
  | .negativeCount => "negative dimensions are not allowed"
  | .capacity e => e.message

end DrawError

namespace BareUse

def message : BareUse → String
  | .heuristic => HeuristicError.message (.notAName "list")
  | .atLeast => "'>=' not supported between instances of 'list' and 'int'"
  | .below => "'<' not supported between instances of 'list' and 'int'"
  | .leftTerm => "can only concatenate list (not \"int\") to list"
  | .rightTerm => "unsupported operand type(s) for +: 'int' and 'list'"
  | .shift => "unsupported operand type(s) for <<: 'int' and 'list'"
  | .folder => "'list' object has no attribute 'mkdir'"
  | .count => "iteration over a 0-d array"

end BareUse

namespace Fault

def message : Fault → String
  | .access e => e.message
  | .problem e => e.message
  | .solution e => e.message
  | .factor e => e.message
  | .path e => e.message
  | .emptyName e => e.message
  | .longNumber => Text.longInteger
  | .level e => e.message
  | .multiplication e => e.message
  | .draw e => e.message
  | .bare use => use.message
  | .statistics e => e.message

/-- Whether the fault concerns one problem only. -/
def isLocal : Fault → Bool
  | .access (.file _) => true
  | .problem _ => true
  | .solution (.bothWays _ _) => true
  | .factor (.missingBit _) => true
  | _ => false

end Fault

end FactorSearch
