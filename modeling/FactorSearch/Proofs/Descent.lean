import FactorSearch.Search
import Mathlib.Data.List.Basic
import Mathlib.Data.List.Nodup
import Mathlib.Data.List.Perm.Subperm

/-!
Descent in the tree of assignments. Restriction by a literal removes its variable
for good, so the literals fixed on the way down from a node are on distinct
variables of that node, as long as each of them occurs when it is fixed. Unit
propagation and the elimination of pure literals descend in this way, pure
literals also when their variable has vanished within the round. What has been
fixed and what is still open share the variables of the upper node, which bounds
the depth.
-/

namespace FactorSearch

open Restriction PureLiterals UnitPropagation

namespace Clause

theorem mem_vars_without {c : Clause} {v x : Int} :
    x ∈ (c.without v).vars ↔ x ∈ c.vars ∧ x ≠ v := by
  simp only [vars, without, List.mem_map, List.mem_filter, bne_iff_ne]
  constructor
  · intro hexists
    obtain ⟨l, ⟨hl, hv⟩, rfl⟩ := hexists
    exact ⟨⟨l, hl, rfl⟩, hv⟩
  · intro hexists
    obtain ⟨⟨l, hl, rfl⟩, hv⟩ := hexists
    exact ⟨l, ⟨hl, hv⟩, rfl⟩

theorem without_eq_self {c : Clause} {v : Int} (h : v ∉ c.vars) : c.without v = c := by
  have hkeep : c.literals.filter (fun l => l.var != v) = c.literals := by
    rw [List.filter_eq_self]
    intro l hl
    rw [bne_iff_ne]
    intro heq
    subst heq
    exact h (List.mem_map_of_mem hl)
  obtain ⟨ls, hnd⟩ := c
  simp only [without, Clause.mk.injEq]
  exact hkeep

end Clause

namespace Restriction

/-- What restriction leaves is a clause without the literal, less its negation. -/
theorem mem_restrict {l : Literal} {c : Clause} {cs : List Clause} (h : c ∈ restrict l cs) :
    ∃ d ∈ cs, l ∉ d.literals ∧ c = d.without l.var := by
  induction cs with
  | nil => simp [restrict] at h
  | cons d rest ih =>
    simp only [restrict] at h
    split at h
    · rename_i hp
      rw [Clause.polarity?_eq_none_iff] at hp
      rcases List.mem_cons.1 h with rfl | hrest
      · have hl : l ∉ c.literals := fun hl => hp (List.mem_map_of_mem hl)
        exact ⟨c, List.mem_cons_self, hl, (Clause.without_eq_self hp).symm⟩
      · obtain ⟨e, he, hle⟩ := ih hrest
        exact ⟨e, List.mem_cons_of_mem _ he, hle⟩
    · rename_i p hp
      split at h
      · obtain ⟨e, he, hle⟩ := ih h
        exact ⟨e, List.mem_cons_of_mem _ he, hle⟩
      · rename_i hpos
        have hl : l ∉ d.literals := by
          intro hl
          rw [Clause.polarity?_of_mem hl] at hp
          exact hpos (Option.some.inj hp).symm
        split at h
        · rw [List.mem_singleton] at h
          exact ⟨d, List.mem_cons_self, hl, h⟩
        · rcases List.mem_cons.1 h with rfl | hrest
          · exact ⟨d, List.mem_cons_self, hl, rfl⟩
          · obtain ⟨e, he, hle⟩ := ih hrest
            exact ⟨e, List.mem_cons_of_mem _ he, hle⟩

/-- The variable of the literal is gone, and no other variable appears. -/
theorem mem_varsOf_restrict {l : Literal} {cs : List Clause} {v : Int}
    (h : v ∈ varsOf (restrict l cs)) : v ∈ varsOf cs ∧ v ≠ l.var := by
  obtain ⟨c, hc, hv⟩ := mem_varsOf.1 h
  obtain ⟨d, hd, -, rfl⟩ := mem_restrict hc
  obtain ⟨hvd, hne⟩ := Clause.mem_vars_without.1 hv
  exact ⟨mem_varsOf.2 ⟨d, hd, hvd⟩, hne⟩

theorem nodup_firstSeen (vs : List Int) (seen : Std.HashSet Int) :
    (firstSeen seen vs).Nodup := by
  induction vs generalizing seen with
  | nil => exact List.nodup_nil
  | cons v rest ih =>
    simp only [firstSeen]
    split
    · exact ih seen
    · rw [List.nodup_cons]
      refine ⟨?_, ih _⟩
      rw [firstSeen_eq]
      simp

theorem nodup_eraseDups (vs : List Int) : vs.eraseDups.Nodup :=
  firstSeen_empty vs ▸ nodup_firstSeen vs ∅

theorem nodup_varsOf (cs : List Clause) : (varsOf cs).Nodup := nodup_firstSeen _ _

end Restriction

namespace Node

/-- Making the given literals true leads from one node to the other. They are on
distinct variables, and each variable occurs in the clauses of the upper node. -/
structure Descends (n m : Node) (fixed : List Literal) : Prop where
  reached : m = fixAll n fixed
  distinct : (fixed.map Literal.var).Nodup
  occurs : ∀ l ∈ fixed, l.var ∈ n.vars

theorem fixAll_append (n : Node) (ls ms : List Literal) :
    fixAll n (ls ++ ms) = fixAll (fixAll n ls) ms := List.foldl_append

theorem depth_fixAll (n : Node) (ls : List Literal) :
    (fixAll n ls).depth = n.depth + ls.length := by
  induction ls generalizing n with
  | nil => rfl
  | cons l rest ih =>
    have h := ih (n.child l)
    rw [depth_child] at h
    simp only [fixAll, List.foldl_cons, List.length_cons] at h ⊢
    omega

theorem mem_vars_fixAll {n : Node} {ls : List Literal} {v : Int}
    (h : v ∈ (fixAll n ls).vars) : v ∈ n.vars ∧ v ∉ ls.map Literal.var := by
  induction ls generalizing n with
  | nil => exact ⟨h, List.not_mem_nil⟩
  | cons l rest ih =>
    obtain ⟨hchild, hrest⟩ := ih (n := n.child l) h
    obtain ⟨hn, hne⟩ := mem_varsOf_restrict hchild
    refine ⟨hn, ?_⟩
    rw [List.map_cons, List.mem_cons]
    rintro (hv | hv)
    · exact hne hv
    · exact hrest hv

namespace Descends

variable {n m k : Node} {ls ms : List Literal}

theorem refl (n : Node) : n.Descends n [] where
  reached := rfl
  distinct := List.nodup_nil
  occurs _ h := absurd h List.not_mem_nil

theorem child {l : Literal} (h : l.var ∈ n.vars) : n.Descends (n.child l) [l] where
  reached := rfl
  distinct := List.nodup_singleton _
  occurs x hx := by
    rw [List.mem_singleton] at hx
    exact hx ▸ h

theorem trans (h : n.Descends m ls) (h' : m.Descends k ms) : n.Descends k (ls ++ ms) where
  reached := by rw [fixAll_append, ← h.reached]; exact h'.reached
  distinct := by
    rw [List.map_append, List.nodup_append]
    refine ⟨h.distinct, h'.distinct, ?_⟩
    intro x hx y hy hxy
    obtain ⟨l, hl, rfl⟩ := List.mem_map.1 hy
    have hvars := h'.occurs l hl
    rw [h.reached] at hvars
    exact (mem_vars_fixAll hvars).2 (hxy ▸ hx)
  occurs l hl := by
    rcases List.mem_append.1 hl with hl | hl
    · exact h.occurs l hl
    · have hvars := h'.occurs l hl
      rw [h.reached] at hvars
      exact (mem_vars_fixAll hvars).1

theorem depth_eq (h : n.Descends m ls) : m.depth = n.depth + ls.length := by
  rw [h.reached, depth_fixAll]

/-- The fixed variables and those still open are different variables of the upper node. -/
theorem length_add_vars_le (h : n.Descends m ls) :
    ls.length + m.vars.length ≤ n.vars.length := by
  have hnodup : (ls.map Literal.var ++ m.vars).Nodup := by
    rw [List.nodup_append]
    refine ⟨h.distinct, nodup_varsOf _, ?_⟩
    intro x hx y hy hxy
    rw [h.reached] at hy
    exact (mem_vars_fixAll hy).2 (hxy ▸ hx)
  have hsub : ls.map Literal.var ++ m.vars ⊆ n.vars := by
    intro x hx
    rcases List.mem_append.1 hx with hx | hx
    · obtain ⟨l, hl, rfl⟩ := List.mem_map.1 hx
      exact h.occurs l hl
    · rw [h.reached] at hx
      exact (mem_vars_fixAll hx).1
  have hlength := hnodup.length_le_of_subset hsub
  simpa only [List.length_append, List.length_map] using hlength

/-- Depth grows no faster than variables are used up. -/
theorem depth_add_vars_le (h : n.Descends m ls) :
    m.depth + m.vars.length ≤ n.depth + n.vars.length := by
  have hdepth := h.depth_eq
  have hvars := h.length_add_vars_le
  omega

end Descends

end Node

namespace UnitPropagation

theorem forced?_var_mem {n : Node} {l : Literal} (h : forced? n = some l) : l.var ∈ n.vars := by
  obtain ⟨c, hc, hl⟩ := forced?_mem h
  exact mem_varsOf.2 ⟨c, hc, by simp [Clause.vars, hl]⟩

/-- Unit propagation fixes as many literals as it counts. -/
theorem exists_descends_propagate (n : Node) :
    ∃ fixed, n.Descends (propagate n).node fixed ∧ fixed.length = (propagate n).count := by
  fun_induction propagate n with
  | case1 n h => exact ⟨[], Node.Descends.refl n, rfl⟩
  | case2 n l h r ih =>
    obtain ⟨fixed, hfixed, hcount⟩ := ih
    refine ⟨l :: fixed, (Node.Descends.child (forced?_var_mem h)).trans hfixed, ?_⟩
    rw [List.length_cons, hcount]

theorem forced?_propagate (n : Node) : forced? (propagate n).node = none := by
  fun_induction propagate n with
  | case1 n h => exact h
  | case2 n l h r ih => exact ih

/-- Where nothing is forced, propagation stays. -/
theorem propagate_eq_self {n : Node} (h : forced? n = none) : propagate n = ⟨n, 0⟩ := by
  rw [propagate]
  split
  · rfl
  · rename_i l hl
    rw [h] at hl
    cases hl

end UnitPropagation

namespace PureLiterals

theorem pureOn?_var {cs : List Clause} {v : Int} {l : Literal} (h : pureOn? cs v = some l) :
    l.var = v := by
  rw [pureOn?_eq] at h
  split at h
  · split at h
    · cases h; rfl
    · cases h; rfl
    · simp at h
  · simp at h

theorem map_var_pureLiterals_sublist (cs : List Clause) :
    ((pureLiterals cs).map Literal.var).Sublist (varsOf cs) := by
  rw [pureLiterals_eq]
  induction varsOf cs with
  | nil => exact List.Sublist.slnil
  | cons v rest ih =>
    rw [List.filterMap_cons]
    split
    · exact ih.cons v
    · rename_i l hl
      rw [List.map_cons, pureOn?_var hl]
      exact ih.cons_cons v

/-- All literals of one round are on distinct variables that occur at its start. -/
theorem descends_round (n : Node) :
    n.Descends (fixAll n (pureLiterals n.clauses)) (pureLiterals n.clauses) where
  reached := rfl
  distinct := (nodup_varsOf _).sublist (map_var_pureLiterals_sublist _)
  occurs _ hl := (map_var_pureLiterals_sublist _).subset (List.mem_map_of_mem hl)

/-- The elimination of pure literals fixes as many literals as it counts. -/
theorem exists_descends_eliminate (n : Node) :
    ∃ fixed, n.Descends (eliminate n).node fixed ∧ fixed.length = (eliminate n).count := by
  fun_induction eliminate n with
  | case1 n h => exact ⟨[], Node.Descends.refl n, rfl⟩
  | case2 n h hp => exact ⟨[], Node.Descends.refl n, rfl⟩
  | case3 n h l rest hp r ih =>
    obtain ⟨fixed, hfixed, hcount⟩ := ih
    have hround := descends_round n
    rw [hp] at hround
    refine ⟨l :: rest ++ fixed, hround.trans hfixed, ?_⟩
    rw [List.length_append, hcount, Nat.add_comm]

end PureLiterals

namespace Search

/-- Pure literals are eliminated after propagation, unless that has met a contradiction. -/
theorem simplify_eq (pure : Bool) (n : Node) :
    simplify pure n =
      if pure && !(propagate n).node.contradiction then
        ⟨(eliminate (propagate n).node).node, (propagate n).count, (eliminate (propagate n).node).count⟩
      else ⟨(propagate n).node, (propagate n).count, 0⟩ := rfl

/-- Simplification descends to where propagation ends, and then by pure literals. -/
theorem exists_descends_parts (pure : Bool) (n : Node) :
    ∃ forced free, n.Descends (propagate n).node forced ∧
      (propagate n).node.Descends (simplify pure n).node free ∧
      forced.length = (simplify pure n).propagations ∧
      free.length = (simplify pure n).pureLiterals := by
  obtain ⟨forced, hforced, hcount⟩ := exists_descends_propagate n
  rw [simplify_eq]
  split
  · obtain ⟨free, hfree, hcount'⟩ := exists_descends_eliminate (propagate n).node
    exact ⟨forced, free, hforced, hfree, hcount, hcount'⟩
  · exact ⟨forced, [], hforced, Node.Descends.refl _, hcount, rfl⟩

/-- Simplification fixes as many literals as it counts. -/
theorem exists_descends_simplify (pure : Bool) (n : Node) :
    ∃ fixed, n.Descends (simplify pure n).node fixed ∧
      fixed.length = (simplify pure n).propagations + (simplify pure n).pureLiterals := by
  obtain ⟨forced, free, hforced, hfree, hcount, hcount'⟩ := exists_descends_parts pure n
  refine ⟨forced ++ free, hforced.trans hfree, ?_⟩
  rw [List.length_append, hcount, hcount']

end Search

end FactorSearch
