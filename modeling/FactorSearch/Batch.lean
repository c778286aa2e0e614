import FactorSearch.CommandLine
import FactorSearch.Fault
import FactorSearch.Host
import FactorSearch.JsonText
import FactorSearch.Progress
import FactorSearch.Statistics
import FactorSearch.TimeLimit

/-!
Factoring a batch of problems. Each problem is taken on its own: a solution found
beside it is read instead of searched for, and otherwise the verdict of a search
is written there. A problem that cannot be read is reported and passed over. A
summary of all problems may be written at the end.
-/

namespace FactorSearch

/-- What a batch is asked to do. -/
structure BatchRequest where
  paths : List String
  heuristic : Setting Heuristic
  pureLiterals : Bool
  decisionBudget : Setting (Option Nat)
  timeLimit : Setting TimeLimit
  useCache : Bool
  save : Bool
  summary : Option String
  progress : Bool
  verbosity : Setting Int

inductive RecordSource where
  | cache
  | search (ctx : Context) (seconds : Option Binary64)

inductive RecordResult where
  | solved (source : RecordSource) (status : Status) (factors : Option Factors)
  | failed (message : String)

structure ProblemRecord where
  problem : String
  result : RecordResult

namespace BatchRequest

def heuristicSwitch : Switch := ⟨["--heuristic"], .one, .choice Heuristic.names, false⟩

def pureLiteralSwitch : Switch := Switch.flag "--pure-literal"

def timeoutSwitch : Switch := ⟨["--timeout"], .one, .decimal, false⟩

def maxDecisionsSwitch : Switch := ⟨["--max-decisions"], .one, .integer, false⟩

def noCacheSwitch : Switch := Switch.flag "--no-cache"

def noSaveSwitch : Switch := Switch.flag "--no-save"

def jsonSwitch : Switch := ⟨["--json"], .one, .text, false⟩

def progressSwitch : Switch := Switch.flag "--progress"

def verbositySwitch : Switch := ⟨["-v", "--verbosity"], .one, .integer, false⟩

def grammar : Grammar where
  switches := [Switch.help, heuristicSwitch, pureLiteralSwitch, timeoutSwitch, maxDecisionsSwitch,
    noCacheSwitch, noSaveSwitch, jsonSwitch, progressSwitch, verbositySwitch]
  free := some "problems"
  exclusive := []

def heuristicOf (name : String) : Heuristic :=
  match Heuristic.ofName name with
  | .ok h => h
  | .error _ => Heuristic.standard

/-- A negative number stands for no limit. -/
def limitOf (n : Int) : Option Nat := if n < 0 then none else some n.toNat

def timeLimitOf (seconds : String) : TimeLimit :=
  (Text.parseDecimal? seconds.toList).bind TimeLimit.ofSeconds

/-- A summary needs a path that is not empty. -/
def summaryOf : Setting String → Option String
  | .given "" => none
  | .given path => some path
  | .bare => none

def ofParsed (p : CommandLine.Parsed) : BatchRequest where
  paths := p.free.getD []
  heuristic := p.setting heuristicSwitch Heuristic.standard heuristicOf
  pureLiterals := p.has pureLiteralSwitch
  decisionBudget := p.setting maxDecisionsSwitch none (fun s => limitOf (CommandLine.integerOf s))
  timeLimit := p.setting timeoutSwitch none timeLimitOf
  useCache := !p.has noCacheSwitch
  save := !p.has noSaveSwitch
  summary := summaryOf (p.setting jsonSwitch "" id)
  progress := p.has progressSwitch
  verbosity := p.setting verbositySwitch 1 CommandLine.integerOf

end BatchRequest

namespace ProblemRecord

def statisticsMembers : RecordSource → List (String × JsonValue)
  | .cache => [("source", .str "cache")]
  | .search ctx seconds =>
    [("source", .str "search"), ("decisions", .int ctx.decisions),
      ("propagations", .int ctx.propagations), ("pure_literals", .int ctx.pureLiterals),
      ("conflicts", .int ctx.conflicts), ("max_depth", .int ctx.maxDepth),
      ("cpu_time", match seconds with
        | some x => .real x
        | none => .unmeasured)]

def factorMembers : Option Factors → List (String × JsonValue)
  | none => []
  | some f => [("first", .int f.first), ("second", .int f.second), ("product", .int f.product)]

def summary (r : ProblemRecord) : JsonValue :=
  match r.result with
  | .solved source status factors =>
    .obj (("problem", .str r.problem) :: statisticsMembers source
      ++ ("status", .str status.name) :: factorMembers factors)
  | .failed message =>
    .obj [("problem", .str r.problem), ("status", .str "ERROR"), ("error", .str message)]

def isFailed (r : ProblemRecord) : Bool :=
  match r.result with
  | .failed _ => true
  | .solved .. => false

end ProblemRecord

namespace Batch

variable {m : Type → Type} [Monad m] [Host m]

def log (threshold : Nat) (e : LogEntry) : m Unit :=
  if threshold ≤ e.level.rank then Host.printError e.text else pure ()

def printLine (line : String) : m Unit := Host.print (line ++ "\n")

/-- Stop a search when its time is up, and log and show its decisions. -/
def watch (threshold : Nat) (limit : TimeLimit) (progress : Bool) (name : String) (start : Nat) :
    Search.Watch m where
  proceed := do
    match limit with
    | none => return true
    | some _ => return !limit.passed ((← Host.clock) - start)
  decided b := do
    let d := b.decision
    log threshold (LogEntry.branches d)
    if progress then
      match Progress.percent? (Progress.share d.depth (d.depth + d.varsLeft)) with
      | some percent => Host.showProgress name percent
      | none => pure ()

def access {α : Type} (x : ExceptT AccessError m α) : ExceptT Fault m α :=
  ExceptT.mk do return (← x.run).mapError Fault.access

def lifted {ε α : Type} (f : ε → Fault) (x : Except ε α) : ExceptT Fault m α :=
  ExceptT.mk (pure (x.mapError f))

def needed {α : Type} (use : BareUse) : Setting α → ExceptT Fault m α
  | .given a => return a
  | .bare => throw (.bare use)

/-- The limit of the decisions, which is needed as soon as a node has to be split. -/
def decisionBudget (w : Search.Watch m) (r : BatchRequest) (n : Node) :
    ExceptT Fault m (Option Nat) := do
  match r.decisionBudget with
  | .given limit => return limit
  | .bare =>
    if (← w.proceed) && Search.undecided r.pureLiterals n then throw (.bare .below)
    else return none

def search (threshold : Nat) (r : BatchRequest) (name : String) (n : Node) :
    ExceptT Fault m (Search.Outcome × Option Binary64) := do
  let heuristic ← needed (m := m) .heuristic r.heuristic
  let limit ← needed (m := m) .atLeast r.timeLimit
  let start ← Host.clock (m := m)
  log (m := m) threshold (LogEntry.searchBegins heuristic r.pureLiterals n)
  let before ← Host.workTime (m := m)
  let w := watch (m := m) threshold limit r.progress name start
  let budget ← decisionBudget w r n
  let options : Search.Options := ⟨heuristic, r.pureLiterals, budget⟩
  let outcome ← ExceptT.lift (Search.solve w options n Context.fresh)
  let after ← Host.workTime (m := m)
  log (m := m) threshold (LogEntry.searchEnds outcome)
  return (outcome, Statistics.between before after)

def readProblem (threshold : Nat) (p : Path) : ExceptT Fault m Factorisation := do
  let text ← access (Host.readText p.text)
  let (entries, result) := Factorisation.ofText (some p.text) text
  entries.forM (fun e => log (m := m) threshold e)
  lifted Fault.problem result

/-- The completed assignment of a model. -/
def modelOf (f : Factorisation) (v : Search.Verdict) : Except PathError (Option (Table Int Bool)) :=
  match v.node? with
  | none => .ok none
  | some n => (fun values => some (f.complete values)) <$> n.assignmentMap

/-- The verdict and the assignment that a solution beside the problem records. -/
def readSolution (f : Factorisation) (p : Path) :
    ExceptT Fault m (Status × Option (Table Int Bool)) := do
  let text ← access (Host.readText p.text)
  let f ← lifted Fault.solution (f.readSolution text (some p.text))
  return (if f.solution.isSome then .satisfiable else .unsatisfiable, f.solution)

def searchSolution (threshold : Nat) (r : BatchRequest) (f : Factorisation) (p sol : Path) :
    ExceptT Fault m (RecordSource × Status × Option (Table Int Bool)) := do
  let (outcome, seconds) ← search threshold r (p.name?.getD "") f.root
  let values ← lifted Fault.path (modelOf f outcome.verdict)
  let status := outcome.verdict.status
  if r.save && status ≠ .indeterminate then
    access (Host.writeFile sol.text (SolutionText.write values))
  if 1 ≤ (← needed (m := m) .atLeast r.verbosity) then
    let memory ← Host.memory (m := m)
    let lines ← lifted Fault.statistics
      (Statistics.lines (Counts.ofContext outcome.context) seconds (Statistics.megabytes memory))
    lines.forM (fun line => printLine (m := m) line)
  return (.search outcome.context seconds, status, values)

/-- The line that states the factors, unless one has too many digits. -/
def factorLine (f : Factors) : Except Fault String :=
  match Text.integerText? f.first, Text.integerText? f.second, Text.integerText? f.product with
  | some a, some b, some c => .ok (a ++ " x " ++ b ++ " = " ++ c)
  | _, _, _ => .error .longNumber

/-- Solve a problem or read its solution, and print the verdict. -/
def processProblem (threshold : Nat) (r : BatchRequest) (p : Path) :
    ExceptT Fault m ProblemRecord := do
  let f ← readProblem threshold p
  let sol ← lifted Fault.emptyName p.solution
  let cached ← if r.useCache then access (Host.present sol.text) else pure false
  let (source, status, values) ←
    if cached then do
      let (status, values) ← readSolution f sol
      pure (.cache, status, values)
    else searchSolution threshold r f p sol
  printLine (m := m) (p.text ++ ": " ++ status.name)
  let factors ←
    if status = .satisfiable then do
      let factors ← lifted Fault.factor (f.factors values)
      printLine (m := m) (← lifted id (factorLine factors))
      pure (some factors)
    else pure none
  return ⟨p.text, .solved source status factors⟩

/-- Process problems in order; a fault of one problem makes a failed record. -/
def processAll (threshold : Nat) (r : BatchRequest) :
    List Path → ExceptT Fault m (List ProblemRecord)
  | [] => return []
  | p :: rest => do
    let record ← tryCatch (processProblem threshold r p) fun e => do
      if e.isLocal then
        printLine (m := m) ("[ERROR] " ++ p.text ++ ": " ++ e.message)
        return ⟨p.text, .failed e.message⟩
      else throw e
    return record :: (← processAll threshold r rest)

/-- Run a batch; the result tells whether every problem went well. -/
def run (level : String) (r : BatchRequest) : ExceptT Fault m Bool := do
  let threshold ← lifted Fault.level (LogLevel.threshold level)
  let before ← Host.workTime (m := m)
  let problems ← access (Host.collectProblems r.paths)
  let records ← processAll threshold r problems
  match r.summary with
  | none => pure ()
  | some path =>
    access (Host.writeFile path (JsonValue.arr (records.map ProblemRecord.summary)).text)
  if 1 ≤ (← needed (m := m) .atLeast r.verbosity) then
    let after ← Host.workTime (m := m)
    printLine (m := m) (Statistics.total (Statistics.between before after))
  return !records.any ProblemRecord.isFailed

end Batch

end FactorSearch
