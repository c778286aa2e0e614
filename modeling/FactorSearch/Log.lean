import FactorSearch.Factorisation
import FactorSearch.Search

/-!
Log entries and the threshold below which they are not shown. Reading a problem
logs what was noticed in it and how many clauses it has; a search logs its
options, each decision and its verdict.
-/

namespace FactorSearch

inductive LogLevel where
  | debug
  | info
  | warning
deriving DecidableEq

structure LogEntry where
  level : LogLevel
  message : String
deriving DecidableEq

structure UnknownLevel where
  name : String
deriving DecidableEq

namespace UnknownLevel

def message (e : UnknownLevel) : String :=
  "Unknown level: " ++ String.ofList (Text.quoted e.name.toList)

end UnknownLevel

namespace LogLevel

def name : LogLevel → String
  | .debug => "DEBUG"
  | .info => "INFO"
  | .warning => "WARNING"

def rank : LogLevel → Nat
  | .debug => 10
  | .info => 20
  | .warning => 30

/-- The least rank that is shown, by the name of a level. -/
def threshold : String → Except UnknownLevel Nat
  | "CRITICAL" => .ok 50
  | "FATAL" => .ok 50
  | "ERROR" => .ok 40
  | "WARN" => .ok 30
  | "WARNING" => .ok 30
  | "INFO" => .ok 20
  | "DEBUG" => .ok 10
  | "NOTSET" => .ok 0
  | other => .error ⟨other⟩

end LogLevel

namespace LogEntry

def text (e : LogEntry) : String := e.level.name ++ ": " ++ e.message ++ "\n"

def noticed (source : Option String) (n : Notice) : LogEntry := ⟨.warning, n.message source⟩

def parsed (source : Option String) (p : Problem) : LogEntry :=
  ⟨.info, "Parsed " ++ sourceName source ++ ": " ++ toString p.clauses.length ++ " clauses"⟩

def searchBegins (h : Heuristic) (pureLiterals : Bool) (n : Node) : LogEntry :=
  ⟨.info, "DPLL search with " ++ toString n.clauses.length ++ " clauses, heuristic="
    ++ h.name ++ ", pure_literal=" ++ (if pureLiterals then "True" else "False")⟩

def branches (d : Search.Decision) : LogEntry :=
  ⟨.debug, "Branch on " ++ toString d.var ++ " at depth " ++ toString d.depth⟩

def searchEnds (outcome : Search.Outcome) : LogEntry :=
  ⟨.info, "DPLL search finished: " ++ outcome.verdict.status.name ++ " after "
    ++ toString outcome.context.decisions ++ " decisions"⟩

end LogEntry

namespace Factorisation

/-- Read the text of a problem; the entries tell what was noticed on the way. -/
def ofText (source : Option String) (text : List Char) :
    List LogEntry × Except ProblemError Factorisation :=
  let reading := ProblemText.parse source text
  let noticed := reading.notices.map (LogEntry.noticed source)
  match reading.result with
  | .ok p => (noticed ++ [LogEntry.parsed source p], .ok (ofProblem p source))
  | .error e => (noticed, .error e)

end Factorisation

end FactorSearch
