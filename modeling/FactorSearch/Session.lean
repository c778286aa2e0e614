import FactorSearch.Search
import FactorSearch.TimeLimit

/-!
A solver in use over time: its options, an interrupt flag that stays set, the
time limit of its searches, and the search contexts that callers share by name.
Counters of direct simplifications go to the context used last. No time passes
in a session, so a time limit is either spent at once or never.
-/

namespace FactorSearch

/-- The context that a solver used last: one of its own, or a shared one. -/
inductive CurrentContext (κ : Type) where
  | own (ctx : Context)
  | shared (key : κ)

structure Session (κ : Type) where
  options : Search.Options
  timeLimit : TimeLimit
  interruptAfter : Option Nat
  interrupted : Bool
  expired : Bool
  shared : Table κ Context
  current : CurrentContext κ

/-- What a watched search has reported so far. -/
structure Observation where
  interrupted : Bool
  decisions : List Search.Decision

namespace Session

variable {κ : Type} [DecidableEq κ]

def start (heuristic : Heuristic) (pureLiterals : Bool) : Session κ where
  options := ⟨heuristic, pureLiterals, none⟩
  timeLimit := none
  interruptAfter := none
  interrupted := false
  expired := false
  shared := Table.empty
  current := .own Context.fresh

def context (s : Session κ) (key : κ) : Context := (s.shared.get? key).getD Context.fresh

def currentContext (s : Session κ) : Context :=
  match s.current with
  | .own ctx => ctx
  | .shared key => s.context key

def setContext (s : Session κ) (key : κ) (ctx : Context) : Session κ :=
  { s with shared := s.shared.insert key ctx }

def setCurrentContext (s : Session κ) (ctx : Context) : Session κ :=
  match s.current with
  | .own _ => { s with current := .own ctx }
  | .shared key => s.setContext key ctx

def interrupt (s : Session κ) : Session κ := { s with interrupted := true }

def clearInterrupt (s : Session κ) : Session κ := { s with interrupted := false }

def withinBudget (s : Session κ) : Bool := !s.interrupted && !s.expired

/-- Count literals fixed outside a search. -/
def count (s : Session κ) (propagations pureLiterals : Nat) : Session κ :=
  let ctx := s.currentContext
  s.setCurrentContext { ctx with
    propagations := ctx.propagations + propagations
    pureLiterals := ctx.pureLiterals + pureLiterals }

def propagate (s : Session κ) (n : Node) : Node × Session κ :=
  let r := UnitPropagation.propagate n
  (r.node, s.count r.count 0)

def eliminate (s : Session κ) (n : Node) : Node × Session κ :=
  let r := PureLiterals.eliminate n
  (r.node, s.count 0 r.count)

def simplify (s : Session κ) (n : Node) : Node × Session κ :=
  let r := Search.simplify s.options.pureLiterals n
  (r.node, s.count r.propagations r.pureLiterals)

/-- Let a heuristic pick and learn in a shared context. -/
def pick (s : Session κ) (n : Node) (h : Heuristic) (key : κ) :
    Except PickError (Option Int) × Session κ :=
  let ctx := s.context key
  match h.pick ctx.activity n.clauses with
  | .ok (some v) => (.ok (some v), s.setContext key { ctx with activity := h.learn ctx.activity v })
  | answer => (answer, s.setContext key ctx)

def updateActivity (s : Session κ) (key : κ) (pairs : List (Int × Int)) : Session κ :=
  let ctx := s.context key
  s.setContext key { ctx with activity := ctx.activity.insertAll pairs }

/-- Report each decision, and interrupt once there are as many as the given number. -/
def watch (expired : Bool) (interruptAfter : Option Nat) : Search.Watch (StateM Observation) where
  proceed := do return !(← get).interrupted && !expired
  decided b := modify fun o =>
    let decisions := b.decision :: o.decisions
    ⟨o.interrupted || interruptAfter.any (· ≤ decisions.length), decisions⟩

/-- Make a shared context the current one, or a fresh one if no key is given. -/
def enter (s : Session κ) : Option κ → Session κ
  | none => { s with current := .own Context.fresh }
  | some key => { s.setContext key (s.context key) with current := .shared key }

/-- Search below a node in a shared context or a fresh one. The decisions come
back in order; the context is the session's current one from then on. -/
def solve (s : Session κ) (n : Node) (key : Option κ) :
    Search.Outcome × List Search.Decision × Session κ :=
  let expired := s.timeLimit.passed 0
  let s := { s.enter key with expired := expired }
  let (outcome, seen) :=
    (Search.solve (watch expired s.interruptAfter) s.options n s.currentContext).run
      ⟨s.interrupted, []⟩
  (outcome, seen.decisions.reverse,
    { s with interrupted := seen.interrupted }.setCurrentContext outcome.context)

end Session

end FactorSearch
