import FactorSearch.Restriction
import FactorSearch.Table

/-!
Nodes of the assignment tree. The root holds the given clauses, and every other
node is reached by making one literal after another true. A node knows the
clauses it started from and the literals fixed since, and what is left of the
clauses always agrees with the two.
-/

namespace FactorSearch

open Restriction

structure Node where
  /-- The clauses of the root. -/
  origin : List Clause
  /-- The literals fixed since, the latest first. -/
  path : List Literal
  /-- What is left of the clauses. -/
  clauses : List Clause
  origin_distinct : origin.Pairwise (fun c d => c.same d = false)
  clauses_eq : clauses = path.foldr restrict origin

/-- What a root is built from: a written list of literals or a finished clause. -/
inductive ClauseSource where
  | written (ls : List Literal)
  | finished (c : Clause)

namespace ClauseSource

/-- The clause a source stands for. A written list whose literals all cancel
stands for none; a list that is empty as written stands for the empty clause. -/
def clause? : ClauseSource → Option Clause
  | .written ls =>
    if !ls.isEmpty && (Clause.ofLiterals ls).isEmpty then none else some (Clause.ofLiterals ls)
  | .finished c => some c

end ClauseSource

inductive PathError where
  | assignedTwice (var : Int)
deriving DecidableEq

namespace PathError

def message : PathError → String
  | .assignedTwice v => "Variable " ++ toString v ++ " is assigned twice on one path."

end PathError

namespace Node

def ofClauses (cs : List Clause) : Node :=
  ⟨Clause.distinct cs, [], Clause.distinct cs, Clause.distinct_pairwise cs, rfl⟩

def ofSources (sources : List ClauseSource) : Node :=
  ofClauses (sources.filterMap ClauseSource.clause?)

def child (n : Node) (l : Literal) : Node :=
  ⟨n.origin, l :: n.path, restrict l n.clauses, n.origin_distinct, by rw [n.clauses_eq]; rfl⟩

def root (n : Node) : Node := ⟨n.origin, [], n.origin, n.origin_distinct, rfl⟩

def depth (n : Node) : Nat := n.path.length

def literal? (n : Node) : Option Literal := n.path.head?

/-- The literals fixed on the way from the root, the first one first. -/
def assignments (n : Node) : List Literal := n.path.reverse

def satisfied (n : Node) : Bool := n.clauses.isEmpty

def contradiction (n : Node) : Bool := n.clauses.any Clause.isEmpty

def firstUnit : List Clause → Option Clause
  | [] => none
  | c :: rest => if c.isEmpty then none else if c.isUnit then some c else firstUnit rest

/-- The first clause of exactly one literal, unless an empty clause comes before it. -/
def unit? (n : Node) : Option Clause := firstUnit n.clauses

def vars (n : Node) : List Int := varsOf n.clauses

def valuesAlong : List Literal → Table Int Bool → Except PathError (Table Int Bool)
  | [], t => .ok t
  | l :: rest, t =>
    if t.contains l.var then .error (.assignedTwice l.var)
    else valuesAlong rest (t.insert l.var l.positive)

/-- The path as a table of values, unless it fixes a variable twice. -/
def assignmentMap (n : Node) : Except PathError (Table Int Bool) :=
  valuesAlong n.assignments Table.empty

/-- The number of fixed literals, and that number together with the variables
still open: their quotient is the share of the search that lies behind. -/
def progress (n : Node) : Nat × Nat := (n.depth, n.depth + n.vars.length)

def text (n : Node) : String := "\x7b" ++ ", ".intercalate (n.clauses.map Clause.text) ++ "\x7d"

def describe (n : Node) : String :=
  "Formula(depth=" ++ toString n.depth ++ ", clauses=" ++ toString n.clauses.length ++ ")"

@[simp] theorem clauses_child (n : Node) (l : Literal) :
    (n.child l).clauses = restrict l n.clauses := rfl

@[simp] theorem depth_child (n : Node) (l : Literal) : (n.child l).depth = n.depth + 1 := rfl

theorem firstUnit_mem {cs : List Clause} {c : Clause} (h : firstUnit cs = some c) :
    c ∈ cs ∧ c.size = 1 := by
  induction cs with
  | nil => simp [firstUnit] at h
  | cons d rest ih =>
    simp only [firstUnit] at h
    split at h
    · simp at h
    · split at h
      · rename_i hu
        cases h
        exact ⟨List.mem_cons_self, by simpa [Clause.isUnit] using hu⟩
      · exact ⟨List.mem_cons_of_mem _ (ih h).1, (ih h).2⟩

end Node

end FactorSearch
