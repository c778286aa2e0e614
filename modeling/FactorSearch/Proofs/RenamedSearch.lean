import FactorSearch.Proofs.Branching
import FactorSearch.Proofs.FirstMaximum
import FactorSearch.Proofs.Renaming

/-!
Searches under a renaming of the variables. Ties between variables go to the one that appears
first, never to the smaller number, so every heuristic picks the renamed variable in renamed
clauses with a renamed activity, and learns the renamed activity from it. A trace of a search
therefore stays one when all of it is renamed, and the run from a renamed root is the renamed
run, decision by decision.
-/

namespace FactorSearch

open Restriction Search

namespace Renaming

open Heuristic

variable (r : Renaming)

section Tables

variable {α : Type} (t : Table Int α) (v : Int)

theorem lookup_map (entries : List (Int × α)) :
    Table.lookup (r.var v) (entries.map (Prod.map r.var id)) = Table.lookup v entries := by
  induction entries with
  | nil => rfl
  | cons e rest ih => simp only [List.map_cons, Prod.map, Table.lookup, var_inj, ih, id]

theorem get?_table : (r.table t).get? (r.var v) = t.get? v := r.lookup_map v t.entries

theorem put_map (a : α) (entries : List (Int × α)) :
    Table.put (r.var v) a (entries.map (Prod.map r.var id)) =
      (Table.put v a entries).map (Prod.map r.var id) := by
  induction entries with
  | nil => rfl
  | cons e rest ih =>
    simp only [List.map_cons, Prod.map, Table.put, var_inj, ih]
    split <;> rfl

theorem insert_table (a : α) : (r.table t).insert (r.var v) a = r.table (t.insert v a) := by
  simp only [Table.insert, table, put_map]

end Tables

section Picks

variable (h : Heuristic) (t : Activity) (cs : List Clause) (v : Int)

theorem weight_map : Heuristic.weight (cs.map r.clause) (r.var v) = Heuristic.weight cs v := by
  rw [Heuristic.weight, Heuristic.weight, occurrences_map, occurrences_map]

theorem shortest_map : shortest (cs.map r.clause) = (shortest cs).map r.clause := by
  simp only [shortest, List.map_map, List.filter_map, Function.comp_def, size_clause]

/-- The variable of greatest score, if renamed variables score alike. -/
theorem firstMax_varsOf (score score' : Int → Int) (hscore : ∀ v, score' (r.var v) = score v) :
    ((firstMax Prod.snd ((varsOf (cs.map r.clause)).map (fun v => (v, score' v)))).map Prod.fst) =
      ((firstMax Prod.snd ((varsOf cs).map (fun v => (v, score v)))).map Prod.fst).map r.var := by
  simp only [varsOf_map, List.map_map, firstMax_map, Option.map_map, Function.comp_def, hscore]

theorem pickWeighted_map : pickWeighted (cs.map r.clause) = (pickWeighted cs).map r.var := by
  rw [pickWeighted_eq, pickWeighted_eq, shortest_map]
  exact r.firstMax_varsOf cs _ _ (fun v => congrArg Nat.cast (r.weight_map (shortest cs) v))

theorem contains_clause (c : Clause) : (r.clause c).contains (r.var v) = c.contains v := by
  rw [Clause.contains, Clause.contains, polarity?_clause]

theorem known_map : known (r.table t) (cs.map r.clause) =
    (known t cs).map (Prod.map r.var id) := by
  simp only [known_eq, varsOf_map, List.filterMap_map, List.map_filterMap, Function.comp_def,
    get?_table, Option.map_map, Prod.map, id]

theorem pickActivity_map :
    pickActivity (r.table t) (cs.map r.clause) = (pickActivity t cs).map r.var := by
  have hcounted : (firstMax Prod.snd (counted (cs.map r.clause))).map Prod.fst =
      ((firstMax Prod.snd (counted cs)).map Prod.fst).map r.var := by
    rw [counted_eq, counted_eq]
    refine r.firstMax_varsOf cs _ _ (fun v => congrArg Nat.cast ?_)
    simp only [List.countP_map, Function.comp_def, contains_clause]
  rw [pickActivity, pickActivity, known_map, firstMax_map, hcounted]
  have hscore : (fun e : Int × Int => (Prod.map r.var id e).2) = Prod.snd := rfl
  rw [hscore]
  cases firstMax Prod.snd (known t cs) with
  | none => rfl
  | some e => rfl

theorem pickFirst_map : pickFirst (cs.map r.clause) = (pickFirst cs).map r.var := by
  cases cs with
  | nil => rfl
  | cons c rest =>
    simp only [pickFirst, List.map_cons, List.head?_cons, Option.bind_some, first?_clause,
      Option.map_map, Function.comp_def, var_literal]

/-- The picked variable of renamed clauses is the renamed one. -/
theorem pick_map : h.pick (r.table t) (cs.map r.clause) =
    (h.pick t cs).map (Option.map r.var) := by
  cases h with
  | weighted =>
    simp only [pick, List.isEmpty_map, pickWeighted_map]
    split <;> rfl
  | activity =>
    simp only [pick, pickActivity_map]
    cases pickActivity t cs <;> rfl
  | first =>
    simp only [pick, pickFirst_map]
    cases pickFirst cs <;> rfl

theorem learn_table : h.learn (r.table t) (r.var v) = r.table (h.learn t v) := by
  cases h with
  | weighted => rfl
  | first => rfl
  | activity =>
    simp only [learn, get?_table]
    cases t.get? v <;> exact r.insert_table t v _

end Picks

def context (ctx : Context) : Context := { ctx with activity := r.table ctx.activity }

def frame (f : Frame) : Frame := ⟨r.node f.node, f.branch.map r.literal⟩

def branching (b : Branching) : Branching := ⟨r.node b.node, r.table b.activity, r.var b.var⟩

def decision (d : Decision) : Decision := { d with var := r.var d.var }

def verdict : Verdict → Verdict
  | .satisfiable n => .satisfiable (r.node n)
  | .unsatisfiable => .unsatisfiable
  | .aborted => .aborted

def outcome (out : Outcome) : Outcome := ⟨r.verdict out.verdict, r.context out.context⟩

def simplification (s : Simplification) : Simplification := { s with node := r.node s.node }

theorem status_verdict (v : Verdict) : (r.verdict v).status = v.status := by
  cases v <;> rfl

theorem node?_verdict (v : Verdict) : (r.verdict v).node? = v.node?.map r.node := by
  cases v <;> rfl

theorem decision_branching (b : Branching) :
    (r.branching b).decision = r.decision b.decision := by
  simp only [Branching.decision, branching, decision, depth_node, vars_node, List.length_map]

theorem entered_frame (o : Options) (f : Frame) :
    entered o (r.frame f) = r.simplification (entered o f) := by
  have henter : (r.frame f).enter = r.node f.enter := by
    obtain ⟨n, branch⟩ := f
    cases branch with
    | none => rfl
    | some l => exact r.child_node n l
  rw [entered, henter, simplify_node]
  rfl

theorem context_branched (ctx : Context) (h : Heuristic) (b : Branching) :
    r.context (ctx.branched h b) = (r.context ctx).branched h (r.branching b) := by
  simp only [context, Context.branched, branching, learn_table, depth_node]

/-- What a trace says stays true when all of it is renamed. -/
theorem trace {o : Options} {start : ℕ} {ctx : Context} {frames : List Frame}
    {bs : List Branching} {out : Outcome} (h : Trace False o start ctx frames bs out) :
    Trace False o start (r.context ctx) (frames.map r.frame) (bs.map r.branching)
      (r.outcome out) := by
  induction h with
  | finished ctx => exact Trace.finished _
  | stopped ctx f rest h => exact h.elim
  | @conflict ctx f rest bs out hc h ih =>
    refine Trace.conflict ?_ ?_
    · rw [entered_frame]
      exact (r.contradiction_node _).trans hc
    · rw [entered_frame]
      exact ih
  | model ctx f rest hc hs =>
    have hmodel := @Trace.model False o start (r.context ctx) (r.frame f) (rest.map r.frame)
    rw [entered_frame] at hmodel
    exact hmodel ((r.contradiction_node _).trans hc) ((r.satisfied_node _).trans hs)
  | exhausted ctx f rest hc hs hb =>
    have hspent := @Trace.exhausted False o start (r.context ctx) (r.frame f) (rest.map r.frame)
    rw [entered_frame] at hspent
    exact hspent ((r.contradiction_node _).trans hc) ((r.satisfied_node _).trans hs) hb
  | @split ctx f rest bs out l hc hs hb hp hv hpos h ih =>
    have hsplit := @Trace.split False o start (r.context ctx) (r.frame f) (rest.map r.frame)
      (bs.map r.branching) (r.outcome out) (r.literal l)
    rw [entered_frame] at hsplit
    refine hsplit ((r.contradiction_node _).trans hc) ((r.satisfied_node _).trans hs) hb ?_ ?_
      hpos ?_
    · exact (r.pick_map _ _ _).trans (by rw [hp]; rfl)
    · change r.var l.var ∈ (r.node (entered o f).node).vars
      rw [vars_node]
      exact List.mem_map_of_mem hv
    · rw [context_branched] at ih
      exact ih

end Renaming

/-- A search from a renamed root with a renamed activity is the renamed search: it ends with
the same status and the same counters, it fixes and picks the renamed literals and variables
in the same order and leaves the renamed activity, and its progress is the same number by
number. -/
theorem solve_renamed (r : Renaming) (o : Options) (sources : List ClauseSource)
    (ctx : Context) :
    let found := (solve recorder o (Node.ofSources sources) ctx).run []
    let found' := (solve recorder o (Node.ofSources (sources.map r.source)) (r.context ctx)).run []
    found'.1.verdict.status = found.1.verdict.status ∧
    found'.1.context = r.context found.1.context ∧
    found'.1.verdict.node?.map Node.assignments =
      (found.1.verdict.node?.map Node.assignments).map (List.map r.literal) ∧
    found'.2.map Branching.decision = (found.2.map Branching.decision).map r.decision ∧
    found'.2.map (fun b => b.node.progress) = found.2.map (fun b => b.node.progress) := by
  intro found found'
  obtain ⟨out, bs, htrace, hrun⟩ := exists_trace_solve o (Node.ofSources sources) ctx
  have hrun' : found' = (r.outcome out, bs.map r.branching) := by
    have hrenamed := (r.trace htrace).run_recorder []
    simp only [List.map_cons, List.map_nil, Renaming.frame, Option.map_none] at hrenamed
    change (solve recorder o (Node.ofSources (sources.map r.source)) (r.context ctx)).run [] = _
    rw [r.ofSources_map]
    exact hrenamed
  have hfound : found = (out, bs) := hrun
  rw [hfound, hrun']
  refine ⟨r.status_verdict _, rfl, ?_, ?_, ?_⟩
  · simp only [Renaming.outcome, r.node?_verdict, Option.map_map, Function.comp_def,
      r.assignments_node]
  · simp only [List.map_map, Function.comp_def, r.decision_branching]
  · simp only [List.map_map, Function.comp_def, Renaming.branching, r.progress_node]

/-- Two clauses over three variables, which occur equally often. -/
def tied : List ClauseSource :=
  [[1, 2, 3], [-1, -2, -3]].map fun ns =>
    .written (ns.filterMap fun n => (Literal.ofInt n).toOption)

/-- The first and the last variable exchange their numbers, so the larger one now stands first. -/
theorem solve_renamed_swap :
    let r := Renaming.swap 1 3 (by decide) (by decide)
    let found := (solve recorder ⟨.weighted, true, none⟩ (Node.ofSources tied) Context.fresh).run []
    let found' := (solve recorder ⟨.weighted, true, none⟩ (Node.ofSources (tied.map r.source))
      (r.context Context.fresh)).run []
    (Node.ofSources (tied.map r.source)).clauses.map (fun c => c.literals.map Literal.toInt) =
      [[3, 2, 1], [-3, -2, -1]] ∧
    found'.1.verdict.status = found.1.verdict.status ∧
    found'.1.verdict.node?.map Node.assignments =
      (found.1.verdict.node?.map Node.assignments).map (List.map r.literal) ∧
    found'.2.map Branching.decision = (found.2.map Branching.decision).map r.decision := by
  intro r found found'
  obtain ⟨hstatus, -, hpath, hdecisions, -⟩ :=
    solve_renamed r ⟨.weighted, true, none⟩ tied Context.fresh
  exact ⟨rfl, hstatus, hpath, hdecisions⟩

end FactorSearch
