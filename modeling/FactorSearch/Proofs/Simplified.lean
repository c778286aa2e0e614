import FactorSearch.Proofs.Assignment
import FactorSearch.Proofs.Branching

/-!
Simplifying a node once is enough. Unit propagation ends with an empty clause or with clauses
of two or more literals, and the elimination of pure literals takes clauses away without
touching the others, so it makes no new unit clause and propagation need not run again. What
is left cannot be simplified any further. The counters, the depth and the path grow by the
same literals, and a valuation of what is left, changed to make them true, satisfies the
clauses from before.
-/

namespace FactorSearch

open Restriction PureLiterals UnitPropagation

namespace Node.Descends

variable {n m : Node} {fixed : List Literal}

theorem var_notMem (h : n.Descends m fixed) {l : Literal} (hl : l ∈ fixed) : l.var ∉ m.vars := by
  rw [h.reached]
  exact fun hvar => (mem_vars_fixAll hvar).2 (List.mem_map_of_mem hl)

/-- What satisfies the lower node satisfies the upper one once it makes the fixed literals true. -/
theorem satisfies_override (h : n.Descends m fixed) {v : Valuation} (hv : v.Satisfies m.clauses) :
    (v.override fixed).Satisfies n.clauses := by
  have htrue : ∀ l ∈ fixed, (v.override fixed).literal l = true :=
    fun l hl => Valuation.literal_override_of_mem v h.distinct hl
  rw [← h.satisfies_iff htrue, Valuation.satisfies_override_iff fun l hl => h.var_notMem hl]
  exact hv

end Node.Descends

namespace UnitPropagation

variable {n : Node}

theorem forced?_eq_none_of_contradiction (h : n.contradiction = true) : forced? n = none :=
  if_pos h

theorem forced?_eq_none_of_two_le_size (h : ∀ c ∈ n.clauses, 2 ≤ c.size) : forced? n = none := by
  by_contra hforced
  obtain ⟨l, hl⟩ := Option.ne_none_iff_exists'.1 hforced
  obtain ⟨c, hc, hunit⟩ := forced?_mem hl
  have htwo := h c hc
  rw [Clause.size, hunit, List.length_singleton] at htwo
  omega

end UnitPropagation

namespace PureLiterals

theorem pureLiterals_eq_nil_of_pureFree {cs : List Clause} (h : PureFree cs) :
    pureLiterals cs = [] := by
  rw [List.eq_nil_iff_forall_not_mem]
  intro l hl
  obtain ⟨c, hc, hlc⟩ := exists_clause_of_pure cs l hl
  have havoids := avoids_of_pureFree h (List.Subset.refl cs) c hc
  exact of_decide_eq_true (List.all_eq_true.1 havoids l hl) hlc

theorem eliminate_eq_self {n : Node} (h : PureFree n.clauses) : eliminate n = ⟨n, 0⟩ := by
  rw [eliminate]
  split
  · rfl
  · split
    · rfl
    · rename_i l rest hpure
      rw [pureLiterals_eq_nil_of_pureFree h] at hpure
      cases hpure

end PureLiterals

namespace Search

variable {pure : Bool} {n : Node}

/-- Nothing is left to simplify: a clause is empty, or all clauses have two or more literals,
none of them pure where pure literals are eliminated. -/
def IsSimple (pure : Bool) (n : Node) : Prop :=
  n.contradiction = true ∨
    (∀ c ∈ n.clauses, 2 ≤ c.size) ∧ (pure = true → PureFree n.clauses)

theorem isSimple_simplify (pure : Bool) (n : Node) : IsSimple pure (simplify pure n).node := by
  cases hc : (simplify pure n).node.contradiction with
  | true => exact Or.inl hc
  | false =>
    refine Or.inr ⟨two_le_size_simplify hc, fun hpure => ?_⟩
    rw [simplify_eq, hpure, Bool.true_and] at hc ⊢
    cases hclear : (propagate n).node.contradiction with
    | true =>
      rw [hclear] at hc
      exact absurd (hclear.symm.trans hc) (by decide)
    | false => exact pureFree_eliminate hclear

/-- Where nothing is left to simplify, simplification changes nothing and counts nothing. -/
theorem simplify_of_isSimple (h : IsSimple pure n) : simplify pure n = ⟨n, 0, 0⟩ := by
  have hforced : forced? n = none := by
    rcases h with hc | hsize
    · exact forced?_eq_none_of_contradiction hc
    · exact forced?_eq_none_of_two_le_size hsize.1
  rw [simplify_eq, propagate_eq_self hforced]
  split
  · rename_i hboth
    rw [Bool.and_eq_true, Bool.not_eq_true'] at hboth
    obtain ⟨hpure, hclear⟩ := hboth
    rcases h with hc | hsize
    · exact absurd (hc.symm.trans hclear) (by decide)
    · rw [eliminate_eq_self (hsize.2 hpure)]
  · rfl

/-- Simplification comes to an end in one pass. It fixes forced literals and then pure ones, as
many as it counts; the path grows by them and the depth by their number. It ends in a
contradiction or with clauses of two or more literals, none of them pure if pure literals are
eliminated, and a second pass gives the same node and counts nothing. The clauses from before
can be satisfied exactly if those that are left can. -/
theorem simplify_fixpoint (pure : Bool) (n : Node) :
    let s := simplify pure n
    ∃ forced free, n.Descends (propagate n).node forced ∧
      (propagate n).node.Descends s.node free ∧
      s.node.assignments = n.assignments ++ (forced ++ free) ∧
      (∀ ctx : Context,
        (ctx.simplified s).propagations = ctx.propagations + forced.length ∧
        (ctx.simplified s).pureLiterals = ctx.pureLiterals + free.length) ∧
      s.node.depth = n.depth + (forced.length + free.length) ∧
      (s.node.contradiction = true ∨
        (∀ c ∈ s.node.clauses, 2 ≤ c.size) ∧ (pure = true → PureFree s.node.clauses)) ∧
      ((simplify pure s.node).node = s.node ∧
        ∀ ctx : Context, ctx.simplified (simplify pure s.node) = ctx) ∧
      ((∃ v : Valuation, v.Satisfies n.clauses) ↔
        ∃ v : Valuation, v.Satisfies s.node.clauses) := by
  intro s
  obtain ⟨forced, free, hforced, hfree, hcount, hcount'⟩ := exists_descends_parts pure n
  have hall : n.Descends s.node (forced ++ free) := hforced.trans hfree
  have hagain : simplify pure s.node = ⟨s.node, 0, 0⟩ :=
    simplify_of_isSimple (isSimple_simplify pure n)
  refine ⟨forced, free, hforced, hfree, hall.assignments_eq, ?_, ?_, isSimple_simplify pure n, ?_, ?_⟩
  · intro ctx
    rw [hcount, hcount']
    exact ⟨rfl, rfl⟩
  · rw [hall.depth_eq, List.length_append]
  · rw [hagain]
    exact ⟨rfl, fun ctx => rfl⟩
  · constructor
    · exact exists_satisfies_simplify pure n
    · intro hexists
      obtain ⟨v, hv⟩ := hexists
      exact ⟨_, hall.satisfies_override hv⟩

end Search

end FactorSearch
