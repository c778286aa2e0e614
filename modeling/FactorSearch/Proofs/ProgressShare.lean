import FactorSearch.Proofs.Branching
import FactorSearch.Progress
import Mathlib.Algebra.Order.Field.Basic
import Mathlib.Algebra.Order.Ring.Rat
import Mathlib.Tactic.Linarith
import Mathlib.Tactic.Positivity

/-!
The progress that a search reports. It reports the share of fixed literals among these and the
open variables of a node that it splits. At least two variables are open there, so the share is
a quotient below one. Below a node more literals are fixed and no more variables are open, pure
literals on vanished variables included, so the share grows along every branch.
-/

namespace FactorSearch

open Restriction PureLiterals Search

namespace Node

/-- The exact share of the search that lies behind. -/
def share (n : Node) : ℚ := n.progress.1 / n.progress.2

/-- The first node is reached from the second by making literals true, one at least. -/
def Below (m n : Node) : Prop := ∃ ls, ls ≠ [] ∧ m = fixAll n ls

variable {n m k : Node}

theorem share_eq (n : Node) : n.share = (n.depth : ℚ) / (n.depth + n.vars.length) := by
  rw [share, progress]
  push_cast
  rfl

theorem share_nonneg (n : Node) : 0 ≤ n.share := by
  rw [share_eq]
  positivity

theorem share_lt_one (h : n.vars ≠ []) : n.share < 1 := by
  have hopen : (0 : ℚ) < n.vars.length := Nat.cast_pos.2 (List.length_pos_iff.2 h)
  rw [share_eq, div_lt_one (by positivity)]
  linarith

theorem below_child (n : Node) (l : Literal) : (n.child l).Below n :=
  ⟨[l], List.cons_ne_nil l [], rfl⟩

theorem Below.fixAll (h : m.Below n) (ls : List Literal) : (fixAll m ls).Below n := by
  obtain ⟨ms, hne, rfl⟩ := h
  exact ⟨ms ++ ls, List.append_ne_nil_of_left_ne_nil hne ls, (fixAll_append n ms ls).symm⟩

theorem Below.depth_lt (h : m.Below n) : n.depth < m.depth := by
  obtain ⟨ls, hne, rfl⟩ := h
  have hlength := List.length_pos_iff.2 hne
  rw [depth_fixAll]
  omega

/-- Fixed literals open no variable. -/
theorem Below.length_vars_le (h : m.Below n) : m.vars.length ≤ n.vars.length := by
  obtain ⟨ls, -, rfl⟩ := h
  apply (nodup_varsOf _).length_le_of_subset
  intro v hv
  exact (mem_vars_fixAll hv).1

/-- More literals fixed and no more variables open make a larger share. -/
theorem Below.share_lt (h : m.Below n) (hopen : n.vars ≠ []) : n.share < m.share := by
  have hdepth := h.depth_lt
  have hvars := h.length_vars_le
  have hlength := List.length_pos_iff.2 hopen
  have hcross : n.depth * (m.depth + m.vars.length) < m.depth * (n.depth + n.vars.length) := by
    calc n.depth * (m.depth + m.vars.length)
        = m.depth * n.depth + n.depth * m.vars.length := by ring
      _ ≤ m.depth * n.depth + n.depth * n.vars.length := by gcongr
      _ < m.depth * n.depth + m.depth * n.vars.length := by gcongr
      _ = m.depth * (n.depth + n.vars.length) := by ring
  rw [share_eq, share_eq, div_lt_div_iff₀ (by norm_cast; omega) (by norm_cast; omega)]
  exact_mod_cast hcross

/-- The quotient that is rounded is that of the share, and its divisor is not zero. -/
theorem estimate_of_open (h : n.vars ≠ []) :
    Progress.estimate n = Binary64.ofQuotient false n.depth (n.depth + n.vars.length) := by
  have hlength := List.length_pos_iff.2 h
  rw [Progress.estimate, progress, Progress.share, if_neg (by omega)]

end Node

namespace Search.Trace

variable {stops : Prop} {o : Options} {start : ℕ} {ctx : Context} {frames : List Frame}
  {bs : List Branching} {out : Outcome} {n : Node}

/-- Simplification leads further down. -/
theorem below_entered {f : Frame} (h : f.enter.Below n) : (entered o f).node.Below n := by
  obtain ⟨fixed, hfixed, -⟩ := exists_descends_simplify o.pureLiterals f.enter
  have hreached : (entered o f).node = fixAll f.enter fixed := hfixed.reached
  rw [hreached]
  exact h.fixAll fixed

/-- A worklist below a node is split only there. -/
theorem nodes_below (h : Trace stops o start ctx frames bs out)
    (hframes : ∀ f ∈ frames, f.enter.Below n) : ∀ b ∈ bs, b.node.Below n := by
  induction h with
  | finished ctx => exact List.forall_mem_nil _
  | stopped ctx f rest h => exact List.forall_mem_nil _
  | conflict hc h ih => exact ih fun f hf => hframes f (List.mem_cons_of_mem _ hf)
  | model ctx f rest hc hs => exact List.forall_mem_nil _
  | exhausted ctx f rest hc hs hb => exact List.forall_mem_nil _
  | @split ctx f rest bs out l hc hs hb hp hv hpos h ih =>
    rw [List.forall_mem_cons] at hframes ⊢
    have hnode : (entered o f).node.Below n := below_entered hframes.1
    refine ⟨hnode, ih ?_⟩
    rw [List.forall_mem_cons, List.forall_mem_cons]
    exact ⟨hnode.fixAll [l.negate], hnode.fixAll [l], hframes.2⟩

/-- The first split of a search is above all others. -/
theorem tail_below (h : Trace stops o start ctx [⟨n, none⟩] bs out) :
    ∀ b ∈ bs.head?, ∀ b' ∈ bs.tail, b'.node.Below b.node := by
  cases h with
  | stopped h => simp
  | conflict hc h =>
    cases h
    simp
  | model hc hs => simp
  | exhausted hc hs hb => simp
  | @split _ _ _ bs _ l hc hs hb hp hv hpos h =>
    intro b hb
    cases hb
    apply h.nodes_below
    rw [List.forall_mem_cons, List.forall_mem_singleton]
    exact ⟨Node.below_child _ l.negate, Node.below_child _ l⟩

end Search.Trace

/-- At every split that the watch of a search is told of, two variables or more are open, and the
depth and the open variables together are within those of the start. So the share of the fixed
literals is a quotient from zero to below one, and it is this quotient that is rounded for the
report. The share of a split node is larger than those of all split nodes above it, of which the
first is above all others. -/
theorem solve_shares_grow {σ : Type} (watch : Watch (StateM σ)) (o : Options) (n : Node)
    (ctx : Context) (s : σ) :
    ∃ bs,
      (solve (noting watch) o n ctx).run (s, []) =
        (((solve watch o n ctx).run s).1, ((solve watch o n ctx).run s).2, bs) ∧
      (∀ b ∈ bs, 2 ≤ b.node.vars.length ∧
        b.node.depth + b.node.vars.length ≤ n.depth + n.vars.length ∧
        0 ≤ b.node.share ∧ b.node.share < 1 ∧
        Progress.estimate b.node =
          Binary64.ofQuotient false b.node.depth (b.node.depth + b.node.vars.length)) ∧
      (∀ b ∈ bs, ∀ b' ∈ bs, b'.node.Below b.node → b.node.share < b'.node.share) ∧
      ∀ b ∈ bs.head?, ∀ b' ∈ bs.tail, b'.node.Below b.node := by
  obtain ⟨bs, htrace, hnoted⟩ :=
    exists_trace_noting watch o ctx.decisions ctx [⟨n, none⟩] s []
  rw [List.nil_append] at hnoted
  have hopen : ∀ b ∈ bs, 2 ≤ b.node.vars.length := by
    intro b hb
    have hpicked := htrace.wellPicked b hb
    exact Node.two_le_length_vars hpicked.nonempty hpicked.two_le_size
  have hne : ∀ b ∈ bs, b.node.vars ≠ [] := by
    intro b hb
    apply List.ne_nil_of_length_pos
    exact Nat.lt_of_lt_of_le Nat.two_pos (hopen b hb)
  have hbound := htrace.depth_add_vars_le (n.depth + n.vars.length)
    (List.forall_mem_singleton.2 le_rfl)
  refine ⟨bs, hnoted, fun b hb => ?_, fun b hb b' _ hbelow => hbelow.share_lt (hne b hb),
    htrace.tail_below⟩
  exact ⟨hopen b hb, hbound b hb, b.node.share_nonneg, Node.share_lt_one (hne b hb),
    Node.estimate_of_open (hne b hb)⟩

end FactorSearch
