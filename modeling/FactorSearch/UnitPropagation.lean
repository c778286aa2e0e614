import FactorSearch.Node

/-!
Unit propagation: the literal of a clause of one literal is forced, and making
it true may leave further such clauses. The forced literals are fixed one after
another, the first such clause first, until none is left or a clause is empty.
Each step drops a clause, so the process ends.
-/

namespace FactorSearch

open Restriction

/-- A node reached by fixing literals without choice, and how many were fixed. -/
structure Reduction where
  node : Node
  count : Nat

namespace UnitPropagation

def forced? (n : Node) : Option Literal :=
  if n.contradiction then none else n.unit?.bind Clause.first?

theorem forced?_mem {n : Node} {l : Literal} (h : forced? n = some l) :
    ∃ c ∈ n.clauses, c.literals = [l] := by
  unfold forced? at h
  split at h
  · simp at h
  · obtain ⟨c, hc, hl⟩ := Option.bind_eq_some_iff.1 h
    have hmem := Node.firstUnit_mem hc
    refine ⟨c, hmem.1, ?_⟩
    have hsize := hmem.2
    unfold Clause.size at hsize
    obtain ⟨m, hm⟩ := List.length_eq_one_iff.1 hsize
    simp only [Clause.first?, hm, List.head?_cons, Option.some.injEq] at hl
    rw [hm, hl]

theorem length_child_lt {n : Node} {l : Literal} (h : forced? n = some l) :
    (n.child l).clauses.length < n.clauses.length := by
  obtain ⟨c, hc, hl⟩ := forced?_mem h
  exact length_restrict_lt hc (by simp [hl])

def propagate (n : Node) : Reduction :=
  match h : forced? n with
  | none => ⟨n, 0⟩
  | some l =>
    let r := propagate (n.child l)
    ⟨r.node, r.count + 1⟩
termination_by n.clauses.length
decreasing_by exact length_child_lt h

theorem weight_propagate_le (n : Node) :
    weight (propagate n).node.clauses ≤ weight n.clauses := by
  fun_induction propagate n with
  | case1 n h => exact Nat.le_refl _
  | case2 n l h r ih =>
    have := weight_restrict_le l n.clauses
    rw [Node.clauses_child] at ih
    exact Nat.le_trans ih this

end UnitPropagation

end FactorSearch
