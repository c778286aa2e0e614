import FactorSearch.Proofs.Assignment
import FactorSearch.Proofs.Branching
import FactorSearch.Proofs.Recursion

/-!
The counters of a search describe its tree. A subtree that is refuted has one conflict more
than it has splits. When a model is found, every conflict has closed a branch, and the open
branches are the true ones beside the false turns of the path to the model; a search that is
given up leaves at least one branch open. The branches explored before the model lie beside
its path, so no split in them is a turn of it.
-/

namespace FactorSearch

open Restriction PureLiterals Search DepthFirst

namespace Search

/-- The path of the node goes through the split one and makes its variable false there. -/
def Branching.turnsLow (b : Branching) (m : Node) : Bool :=
  b.node.assignments.isPrefixOf m.assignments &&
    m.assignments[b.node.depth]?.any fun l => l.var == b.var && !l.positive

/-- The number of splits at which the path of the node makes the variable false. -/
def lowTurns (bs : List Branching) (m : Node) : ℕ := bs.countP fun b => b.turnsLow m

theorem lowTurns_cons (b : Branching) (bs : List Branching) (m : Node) :
    lowTurns (b :: bs) m = lowTurns bs m + if b.turnsLow m then 1 else 0 := List.countP_cons

theorem lowTurns_append (bs bs' : List Branching) (m : Node) :
    lowTurns (bs ++ bs') m = lowTurns bs m + lowTurns bs' m := List.countP_append

theorem lowTurns_eq_zero {bs : List Branching} {m : Node} (h : ∀ b ∈ bs, b.turnsLow m = false) :
    lowTurns bs m = 0 := List.countP_eq_zero.2 fun b hb => Bool.eq_false_iff.1 (h b hb)

section Turns

variable {n m : Node} {l : Literal} {activity : Activity}

theorem assignments_child (n : Node) (l : Literal) :
    (n.child l).assignments = n.assignments ++ [l] := List.reverse_cons

theorem length_assignments (n : Node) : n.assignments.length = n.depth := List.length_reverse

/-- A path through a branch of a split takes the turn of this branch. -/
theorem turnsLow_of_child (h : (n.child l).assignments <+: m.assignments) :
    Branching.turnsLow ⟨n, activity, l.var⟩ m = !l.positive := by
  rw [assignments_child] at h
  obtain ⟨rest, hrest⟩ := h
  rw [List.append_assoc] at hrest
  have hthrough : n.assignments.isPrefixOf m.assignments = true :=
    List.isPrefixOf_iff_prefix.2 ⟨_, hrest⟩
  have hnext : m.assignments[n.depth]? = some l := by
    rw [← hrest, ← length_assignments, List.getElem?_append_right le_rfl, Nat.sub_self]
    rfl
  rw [Branching.turnsLow, hthrough, hnext, Option.any_some, beq_self_eq_true, Bool.true_and,
    Bool.true_and]

/-- A path through one branch goes through no node below the other. -/
theorem turnsLow_of_sibling {b : Branching}
    (hb : (n.child l.negate).assignments <+: b.node.assignments)
    (h : (n.child l).assignments <+: m.assignments) : b.turnsLow m = false := by
  have hbeside : b.node.assignments.isPrefixOf m.assignments = false := by
    rw [Bool.eq_false_iff, ne_eq, List.isPrefixOf_iff_prefix]
    intro hthrough
    have hlength : (n.child l.negate).assignments.length = (n.child l).assignments.length := by
      rw [length_assignments, length_assignments, Node.depth_child, Node.depth_child]
    have hsame := (List.prefix_of_prefix_length_le (hb.trans hthrough) h hlength.le).eq_of_length
      hlength
    rw [assignments_child, assignments_child, List.append_cancel_left_eq,
      List.singleton_inj] at hsame
    exact (Bool.not_eq_self _).1 (congrArg Literal.positive hsame)
  rw [Branching.turnsLow, hbeside, Bool.false_and]

theorem assignments_simplify (pure : Bool) (n : Node) :
    n.assignments <+: (simplify pure n).node.assignments := by
  obtain ⟨fixed, hfixed, -⟩ := exists_descends_simplify pure n
  exact ⟨fixed, hfixed.assignments_eq.symm⟩

theorem assignments_child_simplify (pure : Bool) (n : Node) (l : Literal) :
    n.assignments <+: ((simplify pure n).node.child l).assignments := by
  rw [assignments_child]
  exact (assignments_simplify pure n).trans (List.prefix_append _ _)

end Turns

end Search

namespace DepthFirst.Explores

variable {o : Options} {start : ℕ} {ctx : Context} {n m : Node} {bs : List Branching}
  {out : Outcome}

/-- All splits of an exploration are below its start. -/
theorem assignments_split (h : Explores o start ctx n out bs) :
    ∀ b ∈ bs, n.assignments <+: b.node.assignments := by
  induction h with
  | conflict hr hc => exact List.forall_mem_nil _
  | model hr hc hs => exact List.forall_mem_nil _
  | exhausted hr hc hs hb => exact List.forall_mem_nil _
  | @low ctx n s l out bs hr hl hlow hout ih =>
    subst hr
    rw [List.forall_mem_cons]
    refine ⟨assignments_simplify _ n, fun b hb => ?_⟩
    exact (assignments_child_simplify _ n l.negate).trans (ih b hb)
  | @high ctx mid n s l out bs bs' hr hl hlow hhigh ihlow ihhigh =>
    subst hr
    rw [List.forall_mem_cons, List.forall_mem_append]
    refine ⟨assignments_simplify _ n, fun b hb => ?_, fun b hb => ?_⟩
    · exact (assignments_child_simplify _ n l.negate).trans (ihlow b hb)
    · exact (assignments_child_simplify _ n l).trans (ihhigh b hb)

/-- A model is below the start of the exploration. -/
theorem assignments_model (h : Explores o start ctx n out bs)
    (hm : out.verdict = .satisfiable m) : n.assignments <+: m.assignments := by
  induction h with
  | conflict hr hc => cases hm
  | model hr hc hs =>
    subst hr
    cases hm
    exact assignments_simplify _ _
  | exhausted hr hc hs hb => cases hm
  | @low ctx n s l out bs hr hl hlow hout ih =>
    subst hr
    exact (assignments_child_simplify _ n l.negate).trans (ih hm)
  | @high ctx mid n s l out bs bs' hr hl hlow hhigh ihlow ihhigh =>
    subst hr
    exact (assignments_child_simplify _ n l).trans (ihhigh hm)

/-- A refuted subtree has one conflict more than it has splits. -/
theorem conflicts_of_unsatisfiable (h : Explores o start ctx n out bs)
    (hout : out.verdict = .unsatisfiable) :
    out.context.conflicts = ctx.conflicts + bs.length + 1 := by
  induction h with
  | conflict hr hc => rfl
  | model hr hc hs => cases hout
  | exhausted hr hc hs hb => cases hout
  | low hr hl hlow hne ih => exact absurd hout hne
  | high hr hl hlow hhigh ihlow ihhigh =>
    have hfirst := ihlow rfl
    have hsecond := ihhigh hout
    simp only [splitContext, Context.branched, Context.simplified] at hfirst
    rw [List.length_cons, List.length_append]
    omega

/-- The branches still open when a model is found are those beside the false turns of its path. -/
theorem conflicts_of_satisfiable (h : Explores o start ctx n out bs)
    (hm : out.verdict = .satisfiable m) :
    out.context.conflicts + lowTurns bs m = ctx.conflicts + bs.length := by
  induction h with
  | conflict hr hc => cases hm
  | model hr hc hs => rfl
  | exhausted hr hc hs hb => cases hm
  | @low ctx n s l out bs hr hl hlow hout ih =>
    have hbelow := ih hm
    have hturn : Branching.turnsLow ⟨s.node, ctx.activity, l.var⟩ m = !l.negate.positive :=
      turnsLow_of_child (hlow.assignments_model hm)
    rw [Literal.negate_positive, hl.positive, Bool.not_not] at hturn
    simp only [splitContext, Context.branched, Context.simplified] at hbelow
    rw [lowTurns_cons, if_pos hturn, List.length_cons]
    omega
  | @high ctx mid n s l out bs bs' hr hl hlow hhigh ihlow ihhigh =>
    have hrefuted := hlow.conflicts_of_unsatisfiable rfl
    have hbelow := ihhigh hm
    have hpath := hhigh.assignments_model hm
    have hturn : Branching.turnsLow ⟨s.node, ctx.activity, l.var⟩ m = !l.positive :=
      turnsLow_of_child hpath
    rw [hl.positive, Bool.not_true, ← Bool.not_eq_true] at hturn
    -- the splits of the refuted branch are no turns of the path
    have hbeside : lowTurns bs m = 0 :=
      lowTurns_eq_zero fun b hb => turnsLow_of_sibling (hlow.assignments_split b hb) hpath
    simp only [splitContext, Context.branched, Context.simplified] at hrefuted
    rw [lowTurns_cons, if_neg hturn, lowTurns_append, hbeside, List.length_cons, List.length_append]
    omega

end DepthFirst.Explores

namespace Search.Trace

variable {stops : Prop} {o : Options} {start : ℕ} {ctx : Context} {frames : List Frame} {n : Node}
  {bs : List Branching} {out : Outcome}

/-- The search that is never stopped explores as the recursion does. -/
theorem explores (h : Trace False o start ctx [⟨n, none⟩] bs out) :
    Explores o start ctx n out bs := by
  obtain ⟨bs', hexplores, -⟩ := follows o start ctx n
  have hrun := h.run_recorder []
  rw [hexplores.trace_start.run_recorder [], Prod.mk.injEq] at hrun
  obtain ⟨hout, hbs⟩ := hrun
  rw [List.nil_append, List.nil_append] at hbs
  rwa [hout, hbs] at hexplores

theorem conflicts_le (h : Trace stops o start ctx frames bs out) :
    ctx.conflicts ≤ out.context.conflicts := by
  induction h with
  | finished ctx => exact le_rfl
  | stopped ctx f rest h => exact le_rfl
  | conflict hc h ih => exact Nat.le_of_succ_le ih
  | model ctx f rest hc hs => exact le_rfl
  | exhausted ctx f rest hc hs hb => exact le_rfl
  | split l hc hs hb hp hv hpos h ih => exact ih

/-- A conflict closes one branch and a split opens one, so a search that is given up leaves
some branch open. -/
theorem conflicts_lt_of_aborted (h : Trace stops o start ctx frames bs out)
    (hout : out.verdict = .aborted) :
    out.context.conflicts < ctx.conflicts + bs.length + frames.length := by
  induction h with
  | finished ctx => cases hout
  | stopped ctx f rest h =>
    show ctx.conflicts < ctx.conflicts + 0 + (rest.length + 1)
    omega
  | conflict hc h ih =>
    have hrest := ih hout
    simp only [Context.conflicting, Context.simplified] at hrest
    rw [List.length_cons]
    omega
  | model ctx f rest hc hs => cases hout
  | exhausted ctx f rest hc hs hb =>
    show ctx.conflicts < ctx.conflicts + 0 + (rest.length + 1)
    omega
  | split l hc hs hb hp hv hpos h ih =>
    have hrest := ih hout
    simp only [Context.branched, Context.simplified, List.length_cons] at hrest ⊢
    omega

theorem maxDepth_eq (h : Trace stops o start ctx frames bs out) :
    out.context.maxDepth = (bs.map fun b => b.node.depth).foldl max ctx.maxDepth := by
  induction h with
  | finished ctx => rfl
  | stopped ctx f rest h => rfl
  | conflict hc h ih => exact ih
  | model ctx f rest hc hs => rfl
  | exhausted ctx f rest hc hs hb => rfl
  | split l hc hs hb hp hv hpos h ih => exact ih

end Search.Trace

/-- The counters of a search, by how much they move. Its watch is told of as many splits as there
are decisions. A search without a model has one conflict more than it has decisions; one that
finds a model has as many decisions more than conflicts as the path to the model makes a split
variable false; one that is given up has no more conflicts than decisions. The depth reached is
the largest of the one before and those of the split nodes. -/
theorem solve_counts_tree {σ : Type} (watch : Watch (StateM σ)) (o : Options) (n : Node)
    (ctx : Context) (s : σ) :
    let out := ((solve watch o n ctx).run s).1
    ∃ bs conflicts,
      (solve (noting watch) o n ctx).run (s, []) = (out, ((solve watch o n ctx).run s).2, bs) ∧
      out.context.decisions = ctx.decisions + bs.length ∧
      out.context.conflicts = ctx.conflicts + conflicts ∧
      (out.verdict = .unsatisfiable → conflicts = bs.length + 1) ∧
      (∀ m, out.verdict = .satisfiable m → bs.length = conflicts + lowTurns bs m) ∧
      (out.verdict = .aborted → conflicts ≤ bs.length) ∧
      out.context.maxDepth = (bs.map fun b => b.node.depth).foldl max ctx.maxDepth := by
  intro out
  obtain ⟨bs, htrace, hnoted⟩ :=
    exists_trace_noting watch o ctx.decisions ctx [⟨n, none⟩] s []
  rw [List.nil_append] at hnoted
  have htrace : Trace (Stops watch) o ctx.decisions ctx [⟨n, none⟩] bs out := htrace
  have hmono := htrace.conflicts_le
  refine ⟨bs, out.context.conflicts - ctx.conflicts, hnoted, htrace.decisions_eq, by omega, ?_, ?_, ?_,
    htrace.maxDepth_eq⟩
  · intro hunsat
    have hfree := htrace.unstopped (by rw [hunsat]; simp)
    have hconflicts := hfree.explores.conflicts_of_unsatisfiable hunsat
    omega
  · intro m hm
    have hfree := htrace.unstopped (by rw [hm]; simp)
    have hconflicts := hfree.explores.conflicts_of_satisfiable hm
    omega
  · intro haborted
    have hconflicts := htrace.conflicts_lt_of_aborted haborted
    rw [List.length_singleton] at hconflicts
    omega

end FactorSearch
