import FactorSearch.Heuristic
import FactorSearch.PureLiterals

/-!
Depth-first search for a satisfying node, with a worklist of branches not yet
taken. A popped branch is simplified; a contradiction is dropped, an empty list
of clauses is a model, and any other node is split on a variable, the false
branch first. The search may be watched, and stopped between two branches; a
budget limits its decisions. It ends because a branch weighs less than the node
it was split from.
-/

namespace FactorSearch

open Restriction

/-- What a search has learned and counted. -/
structure Context where
  activity : Activity
  decisions : Nat
  propagations : Nat
  pureLiterals : Nat
  conflicts : Nat
  maxDepth : Nat

namespace Context

def fresh : Context := ⟨Table.empty, 0, 0, 0, 0, 0⟩

end Context

inductive Status where
  | satisfiable
  | unsatisfiable
  | indeterminate
deriving DecidableEq

namespace Status

def name : Status → String
  | .satisfiable => "SATISFIABLE"
  | .unsatisfiable => "UNSATISFIABLE"
  | .indeterminate => "INDETERMINATE"

def code : Status → Int
  | .satisfiable => 10
  | .unsatisfiable => 20
  | .indeterminate => 0

def ofCode? (code : Int) : Option Status :=
  [Status.satisfiable, .unsatisfiable, .indeterminate].find? (fun s => s.code == code)

end Status

namespace Search

structure Options where
  heuristic : Heuristic
  pureLiterals : Bool
  /-- The decisions that one search may make, if there is a limit. -/
  decisionBudget : Option Nat

/-- A variable split on, the depth of the node, and the variables open there. -/
structure Decision where
  var : Int
  depth : Nat
  varsLeft : Nat

/-- A node that is split: the activity its heuristic reads there, and the variable
that it picks. -/
structure Branching where
  node : Node
  activity : Activity
  var : Int

def Branching.decision (b : Branching) : Decision := ⟨b.var, b.node.depth, b.node.vars.length⟩

/-- Watching a search: may it take another branch, and where has it split. -/
structure Watch (m : Type → Type) where
  proceed : m Bool
  decided : Branching → m Unit

inductive Verdict where
  | satisfiable (node : Node)
  | unsatisfiable
  | aborted

structure Outcome where
  verdict : Verdict
  context : Context

/-- A node still to be entered, through a literal if it is a branch. -/
structure Frame where
  node : Node
  branch : Option Literal

namespace Verdict

def status : Verdict → Status
  | .satisfiable _ => .satisfiable
  | .unsatisfiable => .unsatisfiable
  | .aborted => .indeterminate

def node? : Verdict → Option Node
  | .satisfiable n => some n
  | _ => none

end Verdict

namespace Frame

def enter (f : Frame) : Node :=
  match f.branch with
  | none => f.node
  | some l => f.node.child l

end Frame

structure Simplification where
  node : Node
  propagations : Nat
  pureLiterals : Nat

/-- Unit propagation, and then the elimination of pure literals if it is wanted
and no clause is empty. -/
def simplify (pureLiterals : Bool) (n : Node) : Simplification :=
  let r := UnitPropagation.propagate n
  if pureLiterals && !r.node.contradiction then
    let q := PureLiterals.eliminate r.node
    ⟨q.node, r.count, q.count⟩
  else ⟨r.node, r.count, 0⟩

/-- Whether a simplified node has to be split. -/
def undecided (pureLiterals : Bool) (n : Node) : Bool :=
  let n := (simplify pureLiterals n).node
  !n.contradiction && !n.satisfied

theorem weight_simplify_le (pureLiterals : Bool) (n : Node) :
    weight (simplify pureLiterals n).node.clauses ≤ weight n.clauses := by
  simp only [simplify]
  split
  · exact Nat.le_trans (PureLiterals.weight_eliminate_le _) (UnitPropagation.weight_propagate_le n)
  · exact UnitPropagation.weight_propagate_le n

theorem nonempty_of_not_contradiction {n : Node} (h : n.contradiction = false) :
    ∀ c ∈ n.clauses, c.isEmpty = false := by
  intro c hc
  simp only [Node.contradiction, List.any_eq_false] at h
  simpa using h c hc

theorem pos_of_mem_varsOf {v : Int} {cs : List Clause} (h : v ∈ varsOf cs) : 0 < v := by
  obtain ⟨c, -, hv⟩ := mem_varsOf.1 h
  obtain ⟨l, -, rfl⟩ := List.mem_map.1 hv
  exact l.var_pos

/-- The variable to split a node on, as a positive literal that occurs there. -/
def choose (h : Heuristic) (table : Activity) (n : Node) (hs : n.satisfied = false)
    (hc : n.contradiction = false) : { l : Literal // l.var ∈ varsOf n.clauses } :=
  have hne : n.clauses ≠ [] := by
    intro e
    simp [Node.satisfied, e] at hs
  match hp : h.pick table n.clauses with
  | .ok (some v) =>
    have hv : v ∈ varsOf n.clauses := by
      obtain ⟨w, hw, hmem⟩ := Heuristic.exists_pick h table hne (nonempty_of_not_contradiction hc)
      rw [hp] at hw
      cases hw
      exact hmem
    ⟨⟨v, true, pos_of_mem_varsOf hv⟩, hv⟩
  | .ok none => absurd hp (by
      obtain ⟨w, hw, -⟩ := Heuristic.exists_pick h table hne (nonempty_of_not_contradiction hc)
      simp [hw])
  | .error e => absurd hp (by
      obtain ⟨w, hw, -⟩ := Heuristic.exists_pick h table hne (nonempty_of_not_contradiction hc)
      simp [hw])

/-- What comes of a branch. -/
inductive Step (f : Frame) where
  | conflict
  | model (node : Node)
  | exhausted
  | split (node : Node) (l : Literal)
      (lighter : ∀ m : Literal, m.var = l.var →
        weight (node.child m).clauses < weight f.enter.clauses)

def withinBudget (o : Options) (start : Nat) (ctx : Context) : Bool :=
  match o.decisionBudget with
  | none => true
  | some limit => decide (ctx.decisions - start < limit)

/-- Enter a branch: the counters move, and the branch ends or is split. -/
def step (o : Options) (start : Nat) (ctx : Context) (f : Frame) : Context × Step f :=
  match hr : simplify o.pureLiterals f.enter with
  | ⟨n, propagations, pureLiterals⟩ =>
    let ctx := { ctx with
      propagations := ctx.propagations + propagations
      pureLiterals := ctx.pureLiterals + pureLiterals }
    if hc : n.contradiction then
      ({ ctx with conflicts := ctx.conflicts + 1 }, .conflict)
    else if hs : n.satisfied then (ctx, .model n)
    else if withinBudget o start ctx then
      let l := choose o.heuristic ctx.activity n (by simpa using hs) (by simpa using hc)
      ({ ctx with
          activity := o.heuristic.learn ctx.activity l.1.var
          decisions := ctx.decisions + 1
          maxDepth := max ctx.maxDepth n.depth },
        .split n l.1 (by
          intro m hm
          have hle := weight_simplify_le o.pureLiterals f.enter
          rw [hr] at hle
          refine Nat.lt_of_lt_of_le (weight_restrict_lt ?_) hle
          rw [hm]
          obtain ⟨c, hc, hv⟩ := mem_varsOf.1 l.2
          exact List.mem_flatMap.2 ⟨c, hc, hv⟩))
    else (ctx, .exhausted)

/-- A branch may be split again and again, but each time into two lighter ones. -/
def bound : List Frame → Nat
  | [] => 0
  | f :: rest => Nat.pow 3 (weight f.enter.clauses) + bound rest

theorem bound_drop (f : Frame) (rest : List Frame) : bound rest < bound (f :: rest) := by
  have : 0 < Nat.pow 3 (weight f.enter.clauses) := Nat.pow_pos (by decide)
  simp only [bound]
  omega

theorem two_pow_lt {a b k : Nat} (ha : a < k) (hb : b < k) :
    Nat.pow 3 a + Nat.pow 3 b < Nat.pow 3 k := by
  obtain ⟨j, rfl⟩ : ∃ j, k = j + 1 := ⟨k - 1, by omega⟩
  have h1 : Nat.pow 3 a ≤ Nat.pow 3 j := Nat.pow_le_pow_right (by decide) (by omega)
  have h2 : Nat.pow 3 b ≤ Nat.pow 3 j := Nat.pow_le_pow_right (by decide) (by omega)
  have h3 : 0 < Nat.pow 3 j := Nat.pow_pos (by decide)
  have h4 : Nat.pow 3 (j + 1) = Nat.pow 3 j * 3 := rfl
  omega

theorem bound_split (f : Frame) (rest : List Frame) (n : Node) (l l' : Literal)
    (h : weight (n.child l).clauses < weight f.enter.clauses)
    (h' : weight (n.child l').clauses < weight f.enter.clauses) :
    bound (⟨n, some l⟩ :: ⟨n, some l'⟩ :: rest) < bound (f :: rest) := by
  have := two_pow_lt h h'
  simp only [bound, Frame.enter] at this ⊢
  omega

variable {m : Type → Type} [Monad m]

/-- Search the branches of a worklist in order. -/
def run (watch : Watch m) (o : Options) (start : Nat) (ctx : Context) : List Frame → m Outcome
  | [] => pure ⟨.unsatisfiable, ctx⟩
  | f :: rest => do
    if ← watch.proceed then
      match step o start ctx f with
      | (next, .conflict) => run watch o start next rest
      | (next, .model n) => pure ⟨.satisfiable n, next⟩
      | (next, .exhausted) => pure ⟨.aborted, next⟩
      | (next, .split n l _) => do
        watch.decided ⟨n, ctx.activity, l.var⟩
        run watch o start next (⟨n, some l.negate⟩ :: ⟨n, some l⟩ :: rest)
    else pure ⟨.aborted, ctx⟩
termination_by frames => bound frames
decreasing_by
  · exact bound_drop f rest
  · rename_i lighter
    exact bound_split f rest n _ _ (lighter _ rfl) (lighter _ rfl)

/-- Search below a node. The decision budget counts the decisions of this search only. -/
def solve (watch : Watch m) (o : Options) (n : Node) (ctx : Context) : m Outcome :=
  run watch o ctx.decisions ctx [⟨n, none⟩]

end Search

end FactorSearch
