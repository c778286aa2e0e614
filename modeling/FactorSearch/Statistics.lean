import FactorSearch.DecimalText
import FactorSearch.Search

/-!
The statistics of a search as lines of text. Rates are per second of work and
zero if no work was measured; what the host did not measure is shown as a star.
A count beyond all floating-point numbers has no rate.
-/

namespace FactorSearch

/-- A count too large for a rate. -/
structure CountTooLarge where
  count : Int
deriving DecidableEq

namespace CountTooLarge

def message (_ : CountTooLarge) : String := "int too large to convert to float"

end CountTooLarge

/-- The counts that are shown. A difference of counts may be negative. -/
structure Counts where
  decisions : Int
  propagations : Int
  pureLiterals : Int
  conflicts : Int
  maxDepth : Int

namespace Counts

def ofContext (ctx : Context) : Counts :=
  ⟨ctx.decisions, ctx.propagations, ctx.pureLiterals, ctx.conflicts, ctx.maxDepth⟩

end Counts

namespace Statistics

def star : Option String → String
  | some s => s
  | none => "*"

def padRight (width : Nat) (s : String) : String :=
  s ++ String.ofList (List.replicate (width - s.length) ' ')

/-- A count divided by a time, to the nearest integer. -/
def rate (count : Int) (seconds : Binary64) : Except CountTooLarge String :=
  if !seconds.isPositive then .ok "0"
  else
    match Binary64.ofInt count with
    | .infinite _ => .error ⟨count⟩
    | _ => .ok (DecimalText.fixed 0 (seconds.divide count))

def counted (title : String) (count : Int) (seconds : Option Binary64) :
    Except CountTooLarge String := do
  let perSecond ← seconds.mapM (rate count)
  return title ++ padRight 14 (toString count) ++ " (" ++ star perSecond ++ " /sec)"

def lines (counts : Counts) (seconds megabytes : Option Binary64) :
    Except CountTooLarge (List String) := do
  let decisions ← counted "decisions             : " counts.decisions seconds
  let propagations ← counted "propagations          : " counts.propagations seconds
  return [decisions, propagations,
    "pure literals         : " ++ toString counts.pureLiterals,
    "conflicts             : " ++ toString counts.conflicts,
    "max depth             : " ++ toString counts.maxDepth,
    "Memory used           : " ++ star (megabytes.map (DecimalText.fixed 2)) ++ " MB",
    "CPU time              : " ++ star (seconds.map (DecimalText.fixed 3)) ++ " s"]

def total (seconds : Option Binary64) : String :=
  "Total CPU time        : " ++ star (seconds.map (DecimalText.fixed 3)) ++ " s"

/-- The seconds between two readings in nanoseconds. -/
def between (start stop : Option Nat) : Option Binary64 :=
  match start, stop with
  | some a, some b => some (Binary64.ofQuotient false (b - a) 1000000000)
  | _, _ => none

def megabytes (bytes : Option Nat) : Option Binary64 :=
  bytes.map (fun b => Binary64.ofQuotient false b 1048576)

end Statistics

end FactorSearch
