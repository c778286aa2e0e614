import FactorSearch.Search
import Mathlib.Data.List.Nodup
import Mathlib.Data.Nat.Init
import Mathlib.Logic.Equiv.Basic

/-!
Renaming of variables. What is made of clauses depends on which variables are the same, on
signs and on the order in which clauses and literals stand, but not on the numbers that
variables have. So a renaming that keeps different variables apart commutes with the building
of clauses and roots, with restriction, and with unit propagation and the elimination of pure
literals; what they count and how deep they go stays the same.
-/

namespace FactorSearch

open Restriction PureLiterals UnitPropagation Search

/-- New numbers for the variables, which are the positive numbers; no two become one. -/
structure Renaming where
  toFun : Int → Int
  pos : ∀ {v}, 0 < v → 0 < toFun v
  inj : ∀ {v w}, 0 < v → 0 < w → toFun v = toFun w → v = w

namespace Renaming

/-- Two variables exchange their numbers. -/
def swap (a b : Int) (ha : 0 < a) (hb : 0 < b) : Renaming where
  toFun := Equiv.swap a b
  pos {v} hv := by
    rw [Equiv.swap_apply_def]
    split
    · exact hb
    split
    · exact ha
    · exact hv
  inj _ _ h := (Equiv.swap a b).injective h

variable (r : Renaming)

/-- The new number of a variable. A number that is no variable stays as it is. -/
def var (v : Int) : Int := if 0 < v then r.toFun v else v

theorem var_pos_iff (v : Int) : 0 < r.var v ↔ 0 < v := by
  unfold var
  split
  · rename_i h
    exact iff_of_true (r.pos h) h
  · exact Iff.rfl

theorem var_injective : Function.Injective r.var := by
  intro v w h
  have hpos : 0 < v ↔ 0 < w := by rw [← r.var_pos_iff v, h, r.var_pos_iff]
  by_cases hv : 0 < v
  · have hw := hpos.1 hv
    rw [var, var, if_pos hv, if_pos hw] at h
    exact r.inj hv hw h
  · have hw := fun hw => hv (hpos.2 hw)
    rwa [var, var, if_neg hv, if_neg hw] at h

@[simp] theorem var_inj {v w : Int} : r.var v = r.var w ↔ v = w := r.var_injective.eq_iff

@[simp] theorem beq_var (v w : Int) : (r.var v == r.var w) = (v == w) := by
  rw [Bool.eq_iff_iff, beq_iff_eq, beq_iff_eq, var_inj]

/-- The variable changes, the sign does not. -/
def literal (l : Literal) : Literal := ⟨r.var l.var, l.positive, (r.var_pos_iff _).2 l.var_pos⟩

@[simp] theorem var_literal (l : Literal) : (r.literal l).var = r.var l.var := rfl

@[simp] theorem positive_literal (l : Literal) : (r.literal l).positive = l.positive := rfl

theorem literal_injective : Function.Injective r.literal := by
  intro l m h
  rw [Literal.ext_iff] at h
  exact Literal.ext (r.var_injective h.1) h.2

theorem map_var_map_literal (ls : List Literal) :
    (ls.map r.literal).map Literal.var = (ls.map Literal.var).map r.var := by
  rw [List.map_map, List.map_map]
  rfl

def clause (c : Clause) : Clause where
  literals := c.literals.map r.literal
  nodup_vars := by
    rw [map_var_map_literal]
    exact List.Nodup.map r.var_injective c.nodup_vars

/-- A table with renamed keys, in the same order. -/
def table {α : Type} (t : Table Int α) : Table Int α where
  entries := t.entries.map (Prod.map r.var id)
  nodup_keys := by
    have hkeys : (t.entries.map (Prod.map r.var id)).map Prod.fst =
        (t.entries.map Prod.fst).map r.var := by
      rw [List.map_map, List.map_map]
      rfl
    rw [hkeys]
    exact List.Nodup.map r.var_injective t.nodup_keys

/-- What a renamed root is built from. -/
def source : ClauseSource → ClauseSource
  | .written ls => .written (ls.map r.literal)
  | .finished c => .finished (r.clause c)

section Clauses

variable (c d : Clause) (l : Literal) (v : Int)

theorem polarity?_clause : (r.clause c).polarity? (r.var v) = c.polarity? v := by
  simp only [Clause.polarity?, clause, List.find?_map, Option.map_map, Function.comp_def,
    var_literal, positive_literal, beq_var]

@[simp] theorem isEmpty_clause : (r.clause c).isEmpty = c.isEmpty := List.isEmpty_map

@[simp] theorem size_clause : (r.clause c).size = c.size := List.length_map _

@[simp] theorem isUnit_clause : (r.clause c).isUnit = c.isUnit := by
  rw [Clause.isUnit, Clause.isUnit, size_clause]

theorem first?_clause : (r.clause c).first? = c.first?.map r.literal := List.head?_map

theorem vars_clause : (r.clause c).vars = c.vars.map r.var := r.map_var_map_literal _

theorem without_clause : (r.clause c).without (r.var v) = r.clause (c.without v) := by
  simp only [Clause.without, clause, List.filter_map, Function.comp_def,
    var_literal, bne, beq_var]

theorem insert_clause : (r.clause c).insert (r.literal l) = r.clause (c.insert l) := by
  have hliterals : ((r.clause c).insert (r.literal l)).literals =
      (c.insert l).literals.map r.literal := by
    rw [Clause.literals_insert, Clause.literals_insert, var_literal, polarity?_clause,
      without_clause]
    cases c.polarity? l.var with
    | none => simp only [clause, List.map_append, List.map_cons, List.map_nil]
    | some p => exact (apply_ite (List.map r.literal) (p = l.positive) _ _).symm
  cases hc : (r.clause c).insert (r.literal l) with
  | mk ls hnd =>
    rw [hc] at hliterals
    simp only [clause, Clause.mk.injEq]
    exact hliterals

theorem ofLiterals_map (ls : List Literal) :
    Clause.ofLiterals (ls.map r.literal) = r.clause (Clause.ofLiterals ls) := by
  have hfold : ∀ c : Clause, (ls.map r.literal).foldl Clause.insert (r.clause c) =
      r.clause (ls.foldl Clause.insert c) := by
    induction ls with
    | nil => exact fun c => rfl
    | cons l rest ih =>
      intro c
      rw [List.map_cons, List.foldl_cons, List.foldl_cons, insert_clause, ih]
  exact hfold Clause.empty

theorem same_clause : (r.clause c).same (r.clause d) = c.same d := by
  rw [Bool.eq_iff_iff, Clause.same_iff, Clause.same_iff]
  constructor
  · intro h l
    have hl := h (r.literal l)
    rwa [clause, clause, List.mem_map_of_injective r.literal_injective,
      List.mem_map_of_injective r.literal_injective] at hl
  · intro h l
    have hmap : ∀ e : Clause, l ∈ (r.clause e).literals ↔ ∃ m ∈ e.literals, r.literal m = l :=
      fun e => List.mem_map
    simp only [hmap, h]

theorem clause?_source (s : ClauseSource) : (r.source s).clause? = s.clause?.map r.clause := by
  cases s with
  | finished c => rfl
  | written ls =>
    simp only [source, ClauseSource.clause?, ofLiterals_map, isEmpty_clause, List.isEmpty_map]
    split <;> rfl

end Clauses

section ClauseLists

variable (cs : List Clause) (l : Literal) (v : Int)

theorem distinct_map :
    Clause.distinct (cs.map r.clause) = (Clause.distinct cs).map r.clause := by
  induction cs with
  | nil => rfl
  | cons c rest ih =>
    simp only [List.map_cons, Clause.distinct, ih, List.filter_map, Function.comp_def, same_clause]

theorem restrict_map :
    restrict (r.literal l) (cs.map r.clause) = (restrict l cs).map r.clause := by
  induction cs with
  | nil => rfl
  | cons c rest ih =>
    simp only [List.map_cons, restrict, var_literal, polarity?_clause, positive_literal,
      without_clause, isEmpty_clause, ih]
    cases c.polarity? l.var with
    | none => rfl
    | some p =>
      dsimp only
      split
      · rfl
      · split <;> rfl

theorem eraseDups_map (vs : List Int) : (vs.map r.var).eraseDups = vs.eraseDups.map r.var := by
  induction hn : vs.length using Nat.strong_induction_on generalizing vs with
  | h n ih =>
    subst hn
    cases vs with
    | nil => rfl
    | cons v rest =>
      have hrest : (rest.filter (fun w => !w == v)).length < (v :: rest).length :=
        Nat.lt_succ_of_le (List.length_filter_le _ _)
      simp only [List.map_cons, List.eraseDups_cons, List.filter_map, Function.comp_def, beq_var,
        ih _ hrest _ rfl]

theorem varsOf_map : varsOf (cs.map r.clause) = (varsOf cs).map r.var := by
  rw [varsOf_eq, varsOf_eq, ← eraseDups_map, List.flatMap_map, List.map_flatMap]
  simp only [vars_clause]

theorem occurrences_map (positive : Bool) :
    occurrences (cs.map r.clause) (r.var v) positive = occurrences cs v positive := by
  simp only [occurrences, List.countP_map, Function.comp_def, polarity?_clause]

end ClauseLists

section Nodes

variable (n : Node) (l : Literal)

def node (n : Node) : Node where
  origin := n.origin.map r.clause
  path := n.path.map r.literal
  clauses := n.clauses.map r.clause
  origin_distinct := by
    rw [List.pairwise_map]
    simpa only [same_clause] using n.origin_distinct
  clauses_eq := by
    rw [n.clauses_eq]
    induction n.path with
    | nil => rfl
    | cons l rest ih => rw [List.foldr_cons, ← restrict_map, ih, List.map_cons, List.foldr_cons]

@[simp] theorem clauses_node : (r.node n).clauses = n.clauses.map r.clause := rfl

theorem ofClauses_map (cs : List Clause) :
    Node.ofClauses (cs.map r.clause) = r.node (Node.ofClauses cs) := by
  simp only [Node.ofClauses, node, distinct_map, List.map_nil]

theorem ofSources_map (sources : List ClauseSource) :
    Node.ofSources (sources.map r.source) = r.node (Node.ofSources sources) := by
  rw [Node.ofSources, Node.ofSources, ← ofClauses_map, List.filterMap_map, List.map_filterMap]
  simp only [Function.comp_def, clause?_source]

theorem child_node : (r.node n).child (r.literal l) = r.node (n.child l) := by
  simp only [Node.child, node, restrict_map, List.map_cons]

theorem assignments_node : (r.node n).assignments = n.assignments.map r.literal :=
  List.map_reverse.symm

@[simp] theorem depth_node : (r.node n).depth = n.depth := List.length_map _

@[simp] theorem contradiction_node : (r.node n).contradiction = n.contradiction := by
  simp only [Node.contradiction, clauses_node, List.any_map, Function.comp_def, isEmpty_clause]

@[simp] theorem satisfied_node : (r.node n).satisfied = n.satisfied := List.isEmpty_map

theorem vars_node : (r.node n).vars = n.vars.map r.var := r.varsOf_map n.clauses

theorem progress_node : (r.node n).progress = n.progress := by
  rw [Node.progress, Node.progress, vars_node, List.length_map, depth_node]

theorem unit?_node : (r.node n).unit? = n.unit?.map r.clause := by
  rw [Node.unit?, Node.unit?, clauses_node]
  induction n.clauses with
  | nil => rfl
  | cons c rest ih =>
    by_cases hempty : c.isEmpty = true
    · simp [Node.firstUnit, hempty]
    · by_cases hunit : c.isUnit = true <;> simp [Node.firstUnit, hempty, hunit, ih]

theorem forced?_node : forced? (r.node n) = (forced? n).map r.literal := by
  simp only [forced?, contradiction_node, unit?_node]
  split
  · rfl
  · rw [Option.bind_map, Option.map_bind]
    simp only [Function.comp_def, first?_clause]

theorem propagate_node :
    propagate (r.node n) = ⟨r.node (propagate n).node, (propagate n).count⟩ := by
  fun_induction propagate n with
  | case1 n h =>
    rw [propagate]
    split
    · rfl
    · rename_i l hl
      rw [forced?_node, h] at hl
      exact absurd hl (by simp)
  | case2 n l h q ih =>
    rw [propagate]
    split
    · rename_i hl
      rw [forced?_node, h] at hl
      exact absurd hl (by simp)
    · rename_i m hm
      rw [forced?_node, h, Option.map_some, Option.some.injEq] at hm
      subst hm
      rw [child_node, ih]

theorem literalOf?_var (v : Int) (counts : Nat × Nat) :
    literalOf? (r.var v) counts = (literalOf? v counts).map r.literal := by
  unfold literalOf?
  by_cases hv : 0 < v
  · rw [dif_pos hv, dif_pos ((r.var_pos_iff v).2 hv)]
    cases decide (0 < counts.2) <;> cases decide (0 < counts.1) <;> rfl
  · rw [dif_neg hv, dif_neg (fun h => hv ((r.var_pos_iff v).1 h))]
    rfl

theorem pureLiterals_map (cs : List Clause) :
    pureLiterals (cs.map r.clause) = (pureLiterals cs).map r.literal := by
  simp only [pureLiterals, varsOf_map, List.filterMap_map, List.map_filterMap, Function.comp_def,
    Tally.count_ofClauses, occurrences_map, literalOf?_var]

theorem fixAll_node (ls : List Literal) :
    fixAll (r.node n) (ls.map r.literal) = r.node (fixAll n ls) := by
  induction ls generalizing n with
  | nil => rfl
  | cons l rest ih =>
    have hrest := ih (n.child l)
    rwa [← child_node] at hrest

theorem eliminate_node :
    eliminate (r.node n) = ⟨r.node (eliminate n).node, (eliminate n).count⟩ := by
  fun_induction eliminate n with
  | case1 n h =>
    rw [eliminate, contradiction_node, if_pos h]
  | case2 n h hp =>
    rw [eliminate, contradiction_node, if_neg h]
    split
    · rfl
    · rename_i l rest hl
      rw [clauses_node, pureLiterals_map, hp] at hl
      exact absurd hl (by simp)
  | case3 n h l rest hp q ih =>
    rw [eliminate, contradiction_node, if_neg h]
    have hround : pureLiterals (r.node n).clauses = (l :: rest).map r.literal := by
      rw [clauses_node, pureLiterals_map, hp]
    split
    · rename_i hl
      rw [hround] at hl
      exact absurd hl (by simp)
    · rename_i m ms hms
      rw [hround] at hms
      rw [← hms, fixAll_node, ih, List.length_map]

theorem simplify_node (pure : Bool) :
    simplify pure (r.node n) =
      ⟨r.node (simplify pure n).node, (simplify pure n).propagations,
        (simplify pure n).pureLiterals⟩ := by
  simp only [simplify, propagate_node, contradiction_node, eliminate_node]
  split <;> rfl

end Nodes

end Renaming

end FactorSearch
