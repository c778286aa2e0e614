import FactorSearch.Proofs.PureFree
import FactorSearch.Proofs.Trace
import Mathlib.Algebra.BigOperators.Group.List.Basic
import Mathlib.Tactic.Ring

/-!
Where a search splits, and how often. Simplification leaves clauses of two or more
literals, so a node that is split has at least two open variables, and its heuristic
is asked about clauses that have a variable. Fixing a literal uses a variable up: the
depth of a node and its open variables never exceed those of the start together, and a
node with `v` open variables is the root of at most `2 ^ (v - 1) - 1` splits. Without
budget and interruption every search decides.
-/

namespace FactorSearch

open Restriction PureLiterals UnitPropagation Search

namespace Node

theorem size_ne_zero_of_not_contradiction {n : Node} (hc : n.contradiction = false) {c : Clause}
    (hmem : c ∈ n.clauses) : c.size ≠ 0 := by
  have hempty := nonempty_of_not_contradiction hc c hmem
  intro hsize
  unfold Clause.size at hsize
  rw [List.length_eq_zero_iff] at hsize
  simp [Clause.isEmpty, hsize] at hempty

/-- If no clause is empty and none is a unit clause, the search for one finds none. -/
theorem size_ne_one_of_firstUnit {cs : List Clause} (hfull : ∀ c ∈ cs, c.isEmpty = false)
    (h : firstUnit cs = none) : ∀ c ∈ cs, c.size ≠ 1 := by
  induction cs with
  | nil => exact fun c hc => absurd hc List.not_mem_nil
  | cons d rest ih =>
    rw [List.forall_mem_cons] at hfull ⊢
    simp only [firstUnit, hfull.1, Bool.false_eq_true, if_false] at h
    split at h
    · simp at h
    · rename_i hunit
      refine ⟨?_, ih hfull.2 h⟩
      intro hsize
      exact hunit (by simp [Clause.isUnit, hsize])

/-- Where nothing is forced and no clause is empty, every clause has two literals. -/
theorem two_le_size_of_forced?_eq_none {n : Node} (hc : n.contradiction = false)
    (hu : forced? n = none) : ∀ c ∈ n.clauses, 2 ≤ c.size := by
  have hnone : firstUnit n.clauses = none := by
    cases hfirst : firstUnit n.clauses with
    | none => rfl
    | some c =>
      have hsize := (firstUnit_mem hfirst).2
      unfold Clause.size at hsize
      obtain ⟨l, hl⟩ := List.length_eq_one_iff.1 hsize
      simp [forced?, hc, unit?, hfirst, Clause.first?, hl] at hu
  intro c hmem
  have hzero := size_ne_zero_of_not_contradiction hc hmem
  have hone := size_ne_one_of_firstUnit (nonempty_of_not_contradiction hc) hnone c hmem
  omega

/-- A clause of two literals is on two variables. -/
theorem two_le_length_vars {n : Node} (hne : n.clauses ≠ [])
    (hsize : ∀ c ∈ n.clauses, 2 ≤ c.size) : 2 ≤ n.vars.length := by
  obtain ⟨c, hc⟩ := List.exists_mem_of_ne_nil _ hne
  have hsub : c.vars ⊆ n.vars := fun v hv => mem_varsOf.2 ⟨c, hc, hv⟩
  have hlength := c.nodup_vars.length_le_of_subset hsub
  have htwo := hsize c hc
  rw [List.length_map] at hlength
  unfold Clause.size at htwo
  omega

end Node

namespace Search

/-- Simplification ends in an empty clause or with clauses of two or more literals. -/
theorem two_le_size_simplify {pure : Bool} {n : Node}
    (hc : (simplify pure n).node.contradiction = false) :
    ∀ c ∈ (simplify pure n).node.clauses, 2 ≤ c.size := by
  have hforced := forced?_propagate n
  simp only [simplify] at hc ⊢
  split at hc
  · rename_i hpure
    rw [if_pos hpure]
    have hclear : (propagate n).node.contradiction = false := by
      rw [Bool.and_eq_true] at hpure
      simpa using hpure.2
    intro c hmem
    exact Node.two_le_size_of_forced?_eq_none hclear hforced c
      ((clauses_eliminate_sublist _).subset hmem)
  · rename_i hpure
    rw [if_neg hpure]
    exact Node.two_le_size_of_forced?_eq_none hc hforced

/-- The heuristic was asked about clauses of two or more literals, and its answer is a
variable that occurs in them. -/
structure Branching.WellPicked (h : Heuristic) (b : Branching) : Prop where
  nonempty : b.node.clauses ≠ []
  two_le_size : ∀ c ∈ b.node.clauses, 2 ≤ c.size
  picked : h.pick b.activity b.node.clauses = .ok (some b.var)
  occurs : b.var ∈ b.node.vars

/-- How often a node with so many open variables can be split, itself and below it. -/
def mostSplits (v : ℕ) : ℕ := 2 ^ (v - 1) - 1

theorem mostSplits_mono {a b : ℕ} (h : a ≤ b) : mostSplits a ≤ mostSplits b := by
  have hpow : 2 ^ (a - 1) ≤ 2 ^ (b - 1) := Nat.pow_le_pow_right (by omega) (by omega)
  unfold mostSplits
  omega

/-- Both branches have lost a variable. -/
theorem mostSplits_split {a b v : ℕ} (hv : 2 ≤ v) (ha : a + 1 ≤ v) (hb : b + 1 ≤ v) :
    mostSplits a + mostSplits b + 1 ≤ mostSplits v := by
  have ha' : mostSplits a ≤ mostSplits (v - 1) := mostSplits_mono (by omega)
  have hb' : mostSplits b ≤ mostSplits (v - 1) := mostSplits_mono (by omega)
  have hpow : 2 ^ (v - 1) = 2 * 2 ^ (v - 1 - 1) := by
    rw [← pow_succ']
    congr 1
    omega
  have hpos : 0 < 2 ^ (v - 1 - 1) := Nat.pow_pos (by omega)
  unfold mostSplits at *
  omega

theorem length_vars_child_lt {n : Node} {l : Literal} (h : l.var ∈ n.vars) :
    (n.child l).vars.length + 1 ≤ n.vars.length := by
  have hroom := (Node.Descends.child h).length_add_vars_le
  rw [List.length_singleton] at hroom
  omega

theorem length_vars_entered_le (o : Options) (f : Frame) :
    (entered o f).node.vars.length ≤ f.enter.vars.length := by
  obtain ⟨fixed, hfixed, -⟩ := exists_descends_simplify o.pureLiterals f.enter
  have hroom := hfixed.length_add_vars_le
  exact Nat.le_trans (Nat.le_add_left _ _) hroom

namespace Trace

variable {stops : Prop} {o : Options} {start : ℕ} {ctx : Context} {frames : List Frame}
  {bs : List Branching} {out : Outcome}

theorem wellPicked (h : Trace stops o start ctx frames bs out) :
    ∀ b ∈ bs, b.WellPicked o.heuristic := by
  induction h with
  | finished ctx => exact fun b hb => absurd hb List.not_mem_nil
  | stopped ctx f rest h => exact fun b hb => absurd hb List.not_mem_nil
  | conflict hc h ih => exact ih
  | model ctx f rest hc hs => exact fun b hb => absurd hb List.not_mem_nil
  | exhausted ctx f rest hc hs hb => exact fun b hb => absurd hb List.not_mem_nil
  | split l hc hs hb hp hv hpos h ih =>
    rw [List.forall_mem_cons]
    exact ⟨⟨clauses_ne_nil_of_not_satisfied hs, two_le_size_simplify hc, hp, hv⟩, ih⟩

theorem decisions_eq (h : Trace stops o start ctx frames bs out) :
    out.context.decisions = ctx.decisions + bs.length := by
  induction h with
  | finished ctx => rfl
  | stopped ctx f rest h => rfl
  | conflict hc h ih => exact ih
  | model ctx f rest hc hs => rfl
  | exhausted ctx f rest hc hs hb => rfl
  | split l hc hs hb hp hv hpos h ih =>
    rw [ih, List.length_cons]
    simp only [Context.branched, Context.simplified]
    omega

/-- Each branch of the worklist allows its own splits. -/
theorem length_le (h : Trace stops o start ctx frames bs out) :
    bs.length ≤ (frames.map (fun f => mostSplits f.enter.vars.length)).sum := by
  induction h with
  | finished ctx => exact Nat.zero_le _
  | stopped ctx f rest h => exact Nat.zero_le _
  | conflict hc h ih =>
    rw [List.map_cons, List.sum_cons]
    omega
  | model ctx f rest hc hs => exact Nat.zero_le _
  | exhausted ctx f rest hc hs hb => exact Nat.zero_le _
  | @split ctx f rest bs out l hc hs hb hp hv hpos h ih =>
    have htwo := Node.two_le_length_vars (clauses_ne_nil_of_not_satisfied hs)
      (two_le_size_simplify hc)
    have hlow := length_vars_child_lt (n := (entered o f).node) (l := l.negate) hv
    have hhigh := length_vars_child_lt hv
    have hsplit := mostSplits_split htwo hlow hhigh
    have hmono := mostSplits_mono (length_vars_entered_le o f)
    simp only [List.map_cons, List.sum_cons, List.length_cons, Frame.enter] at ih ⊢
    simp only [Frame.enter] at hmono
    omega

/-- The depth of a node and its open variables stay within the bound of the worklist. -/
theorem depth_add_vars_le (h : Trace stops o start ctx frames bs out) (bound : ℕ)
    (hbound : ∀ f ∈ frames, f.enter.depth + f.enter.vars.length ≤ bound) :
    ∀ b ∈ bs, b.node.depth + b.node.vars.length ≤ bound := by
  induction h with
  | finished ctx => exact fun b hb => absurd hb List.not_mem_nil
  | stopped ctx f rest h => exact fun b hb => absurd hb List.not_mem_nil
  | conflict hc h ih => exact ih fun f hf => hbound f (List.mem_cons_of_mem _ hf)
  | model ctx f rest hc hs => exact fun b hb => absurd hb List.not_mem_nil
  | exhausted ctx f rest hc hs hb => exact fun b hb => absurd hb List.not_mem_nil
  | @split ctx f rest bs out l hc hs hb hp hv hpos h ih =>
    rw [List.forall_mem_cons] at hbound
    obtain ⟨fixed, hfixed, -⟩ := exists_descends_simplify o.pureLiterals f.enter
    have hnode : (entered o f).node.depth + (entered o f).node.vars.length ≤ bound :=
      Nat.le_trans hfixed.depth_add_vars_le hbound.1
    have hchild : ∀ m : Literal, m.var = l.var →
        ((entered o f).node.child m).depth + ((entered o f).node.child m).vars.length ≤ bound := by
      intro m hm
      have hdescends := Node.Descends.child (n := (entered o f).node) (l := m) (hm ▸ hv)
      exact Nat.le_trans hdescends.depth_add_vars_le hnode
    rw [List.forall_mem_cons]
    refine ⟨hnode, ih ?_⟩
    rw [List.forall_mem_cons, List.forall_mem_cons]
    exact ⟨hchild l.negate rfl, hchild l rfl, hbound.2⟩

/-- Without a budget and without interruption no run is aborted. -/
theorem not_aborted (h : Trace False o start ctx frames bs out) (hb : o.decisionBudget = none) :
    out.verdict ≠ .aborted := by
  induction h with
  | finished ctx => simp
  | stopped ctx f rest h => exact h.elim
  | conflict hc h ih => exact ih
  | model ctx f rest hc hs => simp
  | exhausted ctx f rest hc hs hbudget => simp [withinBudget, hb] at hbudget
  | split l hc hs hb hp hv hpos h ih => exact ih

end Trace

/-- The trace of an uninterrupted search, as the recorder sees it. -/
theorem exists_trace_solve (o : Options) (n : Node) (ctx : Context) :
    ∃ out branchings, Trace False o ctx.decisions ctx [⟨n, none⟩] branchings out ∧
      (solve recorder o n ctx).run [] = (out, branchings) := by
  obtain ⟨bs, htrace⟩ := exists_trace_run recorder o ctx.decisions ctx [⟨n, none⟩] []
  have hfree : Trace False _ _ _ _ bs _ := htrace.mono not_stops_recorder
  exact ⟨_, bs, hfree, hfree.run_recorder []⟩

end Search

/-- Without budget and interruption a search decides, whoever watches it. It splits only
nodes whose clauses have two or more literals, on a variable that its heuristic finds
there; with `v` open variables at the start it makes at most `2 ^ (v - 1) - 1` decisions,
none if `v` is at most one, all of them at least two below the depth and the variables of
the start together. -/
theorem solve_decides (h : Heuristic) (pure : Bool) (n : Node) (ctx : Context) :
    ∃ out branchings, (solve recorder ⟨h, pure, none⟩ n ctx).run [] = (out, branchings) ∧
      (∀ (σ : Type) (watch : Watch (StateM σ)) (s : σ), ¬ Stops watch →
        ((solve watch ⟨h, pure, none⟩ n ctx).run s).1 = out) ∧
      (out.verdict.status = .satisfiable ∨ out.verdict.status = .unsatisfiable) ∧
      (∀ b ∈ branchings, b.node.clauses ≠ [] ∧ (∀ c ∈ b.node.clauses, 2 ≤ c.size) ∧
        h.pick b.activity b.node.clauses = .ok (some b.var) ∧ b.var ∈ b.node.vars ∧
        b.node.depth + 2 ≤ n.depth + n.vars.length) ∧
      out.context.decisions = ctx.decisions + branchings.length ∧
      branchings.length ≤ 2 ^ (n.vars.length - 1) - 1 := by
  obtain ⟨out, branchings, htrace, hrun⟩ := exists_trace_solve ⟨h, pure, none⟩ n ctx
  refine ⟨out, branchings, hrun, fun σ watch s hgo => htrace.run_eq hgo s, ?_, ?_,
    htrace.decisions_eq, ?_⟩
  · have hdecided := htrace.not_aborted rfl
    cases hverdict : out.verdict with
    | satisfiable m => exact Or.inl rfl
    | unsatisfiable => exact Or.inr rfl
    | aborted => exact absurd hverdict hdecided
  · intro b hb
    obtain ⟨hne, hsize, hpicked, hoccurs⟩ := htrace.wellPicked b hb
    have hbound := htrace.depth_add_vars_le (n.depth + n.vars.length)
      (fun f hf => by
        rw [List.mem_singleton] at hf
        subst hf
        exact Nat.le_refl _) b hb
    have htwo := Node.two_le_length_vars hne hsize
    exact ⟨hne, hsize, hpicked, hoccurs, by omega⟩
  · have hlength := htrace.length_le
    simpa [mostSplits, Frame.enter] using hlength

end FactorSearch
