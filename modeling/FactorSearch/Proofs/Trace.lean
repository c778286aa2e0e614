import FactorSearch.Search
import Mathlib.Data.Nat.Init

/-!
Traces of a search: which branches it enters, one after another, what simplification
makes of each, and where it splits. A trace says everything that one entered branch
can lead to, so facts about searches are proved by induction on traces. Every watched
search follows a trace, and it is cut short only where the watch says so; the search
that is never stopped has one trace only, and any watch that lets it proceed sees the
same outcome.
-/

namespace FactorSearch

open Restriction Search

namespace Context

/-- The counters once a node has been simplified. -/
def simplified (ctx : Context) (s : Simplification) : Context := { ctx with
  propagations := ctx.propagations + s.propagations
  pureLiterals := ctx.pureLiterals + s.pureLiterals }

def conflicting (ctx : Context) : Context := { ctx with conflicts := ctx.conflicts + 1 }

/-- The context once a node has been split. -/
def branched (ctx : Context) (h : Heuristic) (b : Branching) : Context := { ctx with
  activity := h.learn ctx.activity b.var
  decisions := ctx.decisions + 1
  maxDepth := max ctx.maxDepth b.node.depth }

end Context

namespace Search

/-- A frame once it has been entered and simplified. -/
def entered (o : Options) (f : Frame) : Simplification := simplify o.pureLiterals f.enter

/-- A run over a worklist: the nodes that are split, and how the run ends. It may stop
before a branch only if `stops` holds. -/
inductive Trace (stops : Prop) (o : Options) (start : Nat) :
    Context → List Frame → List Branching → Outcome → Prop
  | finished (ctx : Context) : Trace stops o start ctx [] [] ⟨.unsatisfiable, ctx⟩
  | stopped (ctx : Context) (f : Frame) (rest : List Frame) (h : stops) :
      Trace stops o start ctx (f :: rest) [] ⟨.aborted, ctx⟩
  | conflict {ctx : Context} {f : Frame} {rest : List Frame} {bs : List Branching} {out : Outcome}
      (hc : (entered o f).node.contradiction = true)
      (h : Trace stops o start (ctx.simplified (entered o f)).conflicting rest bs out) :
      Trace stops o start ctx (f :: rest) bs out
  | model (ctx : Context) (f : Frame) (rest : List Frame)
      (hc : (entered o f).node.contradiction = false)
      (hs : (entered o f).node.satisfied = true) :
      Trace stops o start ctx (f :: rest) []
        ⟨.satisfiable (entered o f).node, ctx.simplified (entered o f)⟩
  | exhausted (ctx : Context) (f : Frame) (rest : List Frame)
      (hc : (entered o f).node.contradiction = false)
      (hs : (entered o f).node.satisfied = false)
      (hb : withinBudget o start ctx = false) :
      Trace stops o start ctx (f :: rest) [] ⟨.aborted, ctx.simplified (entered o f)⟩
  | split {ctx : Context} {f : Frame} {rest : List Frame} {bs : List Branching} {out : Outcome}
      (l : Literal) (hc : (entered o f).node.contradiction = false)
      (hs : (entered o f).node.satisfied = false)
      (hb : withinBudget o start ctx = true)
      (hp : o.heuristic.pick ctx.activity (entered o f).node.clauses = .ok (some l.var))
      (hv : l.var ∈ (entered o f).node.vars) (hpos : l.positive = true)
      (h : Trace stops o start
        ((ctx.simplified (entered o f)).branched o.heuristic
          ⟨(entered o f).node, ctx.activity, l.var⟩)
        (⟨(entered o f).node, some l.negate⟩ :: ⟨(entered o f).node, some l⟩ :: rest) bs out) :
      Trace stops o start ctx (f :: rest) (⟨(entered o f).node, ctx.activity, l.var⟩ :: bs) out

variable {o : Options} {start : Nat} {ctx : Context} {f : Frame}

theorem step_conflict (hc : (entered o f).node.contradiction = true) :
    step o start ctx f = ((ctx.simplified (entered o f)).conflicting, .conflict) := by
  unfold step
  split
  rename_i n p q hr
  have he : entered o f = ⟨n, p, q⟩ := hr
  rw [he] at hc ⊢
  rw [dif_pos hc]
  rfl

theorem step_model (hc : (entered o f).node.contradiction = false)
    (hs : (entered o f).node.satisfied = true) :
    step o start ctx f = (ctx.simplified (entered o f), .model (entered o f).node) := by
  unfold step
  split
  rename_i n p q hr
  have he : entered o f = ⟨n, p, q⟩ := hr
  rw [he] at hc hs ⊢
  rw [dif_neg (by simp [hc]), dif_pos hs]
  rfl

theorem step_exhausted (hc : (entered o f).node.contradiction = false)
    (hs : (entered o f).node.satisfied = false) (hb : withinBudget o start ctx = false) :
    step o start ctx f = (ctx.simplified (entered o f), .exhausted) := by
  unfold step
  split
  rename_i n p q hr
  have he : entered o f = ⟨n, p, q⟩ := hr
  rw [he] at hc hs ⊢
  have hb' : withinBudget o start (ctx.simplified ⟨n, p, q⟩) = false := hb
  simp only [Context.simplified] at hb'
  rw [dif_neg (by simp [hc]), dif_neg (by simp [hs]), if_neg (by simp [hb'])]
  rfl

theorem clauses_ne_nil_of_not_satisfied {n : Node} (hs : n.satisfied = false) :
    n.clauses ≠ [] := by
  intro hempty
  simp [Node.satisfied, hempty] at hs

theorem pick_choose (h : Heuristic) (table : Activity) (n : Node) (hs : n.satisfied = false)
    (hc : n.contradiction = false) :
    h.pick table n.clauses = .ok (some (choose h table n hs hc).1.var) ∧
      (choose h table n hs hc).1.positive = true := by
  have hne := clauses_ne_nil_of_not_satisfied hs
  obtain ⟨w, hw, -⟩ := Heuristic.exists_pick h table hne (nonempty_of_not_contradiction hc)
  unfold choose
  dsimp only
  split
  · rename_i v hp
    exact ⟨hp, rfl⟩
  · rename_i hp
    simp [hw] at hp
  · rename_i e hp
    simp [hw] at hp

/-- A branch on a variable that occurs is lighter than the frame it comes from. -/
theorem weight_child_entered_lt (o : Options) (f : Frame) (l : Literal)
    (hl : l.var ∈ (entered o f).node.vars) :
    weight ((entered o f).node.child l).clauses < weight f.enter.clauses := by
  obtain ⟨c, hc, hv⟩ := mem_varsOf.1 hl
  have hlt := weight_restrict_lt (List.mem_flatMap.2 ⟨c, hc, hv⟩)
  exact Nat.lt_of_lt_of_le hlt (weight_simplify_le o.pureLiterals f.enter)

theorem step_split (hc : (entered o f).node.contradiction = false)
    (hs : (entered o f).node.satisfied = false) (hb : withinBudget o start ctx = true) :
    ∃ l lighter, step o start ctx f =
        ((ctx.simplified (entered o f)).branched o.heuristic
            ⟨(entered o f).node, ctx.activity, l.var⟩,
          .split (entered o f).node l lighter) ∧
      o.heuristic.pick ctx.activity (entered o f).node.clauses = .ok (some l.var) ∧
      l.var ∈ (entered o f).node.vars ∧ l.positive = true := by
  unfold step
  split
  rename_i n p q hr
  have he : entered o f = ⟨n, p, q⟩ := hr
  rw [he] at hc hs ⊢
  have hb' : withinBudget o start (ctx.simplified ⟨n, p, q⟩) = true := hb
  simp only [Context.simplified] at hb'
  obtain ⟨hp, hpos⟩ := pick_choose o.heuristic ctx.activity n hs hc
  have hv := (choose o.heuristic ctx.activity n hs hc).2
  have hlighter := weight_child_entered_lt o f
  rw [he] at hlighter
  refine ⟨_, fun m hm => hlighter m (hm ▸ hv), ?_, hp, hv, hpos⟩
  rw [dif_neg (by simp [hc]), dif_neg (by simp [hs]), if_pos hb']
  rfl

/-- The picked variable and the sign determine the literal of the split. -/
theorem step_split_of_pick {l : Literal} (hc : (entered o f).node.contradiction = false)
    (hs : (entered o f).node.satisfied = false) (hb : withinBudget o start ctx = true)
    (hp : o.heuristic.pick ctx.activity (entered o f).node.clauses = .ok (some l.var))
    (hpos : l.positive = true) :
    ∃ lighter, step o start ctx f =
      ((ctx.simplified (entered o f)).branched o.heuristic
          ⟨(entered o f).node, ctx.activity, l.var⟩,
        .split (entered o f).node l lighter) := by
  obtain ⟨l', lighter, hstep, hp', -, hpos'⟩ := step_split hc hs hb
  have hl : l' = l := by
    rw [hp] at hp'
    ext
    · exact (Option.some.inj (Except.ok.inj hp')).symm
    · rw [hpos, hpos']
  subst hl
  exact ⟨lighter, hstep⟩

variable {σ : Type}

/-- The watch that never stops a search and notes where it splits. -/
def recorder : Watch (StateM (List Branching)) where
  proceed := pure true
  decided b := modify (· ++ [b])

/-- Whether a watch stops a search in some state. -/
def Stops (watch : Watch (StateM σ)) : Prop := ∃ s, (watch.proceed.run s).1 = false

theorem not_stops_recorder : ¬ Stops recorder := by
  intro hexists
  obtain ⟨s, hs⟩ := hexists
  simp [recorder] at hs

theorem run_nil (watch : Watch (StateM σ)) (s : σ) :
    (run watch o start ctx []).run s = (⟨.unsatisfiable, ctx⟩, s) := by
  rw [run]
  rfl

theorem run_cons_of_stop (watch : Watch (StateM σ)) (rest : List Frame) {s : σ}
    (h : (watch.proceed.run s).1 = false) :
    (run watch o start ctx (f :: rest)).run s =
      (⟨.aborted, ctx⟩, (watch.proceed.run s).2) := by
  rw [run, StateT.run_bind]
  generalize watch.proceed.run s = asked at h ⊢
  obtain ⟨go, s'⟩ := asked
  subst h
  rfl

/-- A branch may be entered: the run goes on as its step says. -/
theorem run_cons_of_proceed (watch : Watch (StateM σ)) (rest : List Frame) {s : σ}
    (h : (watch.proceed.run s).1 = true) :
    (run watch o start ctx (f :: rest)).run s =
      (match step o start ctx f with
        | (next, .conflict) => run watch o start next rest
        | (next, .model n) => pure ⟨.satisfiable n, next⟩
        | (next, .exhausted) => pure ⟨.aborted, next⟩
        | (next, .split n l _) => do
          watch.decided ⟨n, ctx.activity, l.var⟩
          run watch o start next (⟨n, some l.negate⟩ :: ⟨n, some l⟩ :: rest)).run
        (watch.proceed.run s).2 := by
  rw [run, StateT.run_bind]
  generalize watch.proceed.run s = asked at h ⊢
  obtain ⟨go, s'⟩ := asked
  subst h
  rfl

/-- A watch that acts as before and keeps the nodes that it is told of. -/
def noting (watch : Watch (StateM σ)) : Watch (StateM (σ × List Branching)) where
  proceed := fun s => ((watch.proceed.run s.1).1, (watch.proceed.run s.1).2, s.2)
  decided b := fun s => ((), ((watch.decided b).run s.1).2, s.2 ++ [b])

/-- Every watched search follows a trace, and the watch is told of its splits in order. -/
theorem exists_trace_noting (watch : Watch (StateM σ)) (o : Options) (start : Nat) (ctx : Context)
    (frames : List Frame) (s : σ) (seen : List Branching) :
    ∃ bs, Trace (Stops watch) o start ctx frames bs ((run watch o start ctx frames).run s).1 ∧
      (run (noting watch) o start ctx frames).run (s, seen) =
        (((run watch o start ctx frames).run s).1,
          ((run watch o start ctx frames).run s).2, seen ++ bs) := by
  induction hb : bound frames using Nat.strong_induction_on generalizing ctx frames s seen with
  | h k ih =>
    subst hb
    cases frames with
    | nil =>
      rw [run_nil, run_nil]
      exact ⟨[], Trace.finished ctx, by rw [List.append_nil]⟩
    | cons f rest =>
      cases hgo : (watch.proceed.run s).1 with
      | false =>
        rw [run_cons_of_stop watch rest hgo, run_cons_of_stop (noting watch) rest (s := (s, seen)) hgo]
        exact ⟨[], Trace.stopped ctx f rest ⟨s, hgo⟩, by rw [List.append_nil]; rfl⟩
      | true =>
        rw [run_cons_of_proceed watch rest hgo,
          run_cons_of_proceed (noting watch) rest (s := (s, seen)) hgo]
        cases hc : (entered o f).node.contradiction with
        | true =>
          rw [step_conflict hc]
          obtain ⟨bs, htrace, hseen⟩ := ih _ (bound_drop f rest) _ rest _ seen rfl
          exact ⟨bs, Trace.conflict hc htrace, hseen⟩
        | false =>
          cases hs : (entered o f).node.satisfied with
          | true =>
            rw [step_model hc hs]
            exact ⟨[], Trace.model ctx f rest hc hs, by rw [List.append_nil]; rfl⟩
          | false =>
            cases hbudget : withinBudget o start ctx with
            | false =>
              rw [step_exhausted hc hs hbudget]
              exact ⟨[], Trace.exhausted ctx f rest hc hs hbudget, by rw [List.append_nil]; rfl⟩
            | true =>
              obtain ⟨l, lighter, hstep, hp, hv, hpos⟩ := step_split hc hs hbudget
              rw [hstep]
              have hlt := bound_split f rest (entered o f).node l.negate l
                (lighter _ rfl) (lighter _ rfl)
              obtain ⟨bs, htrace, hseen⟩ := ih _ hlt _ _ _ (seen ++ [_]) rfl
              refine ⟨_, Trace.split l hc hs hbudget hp hv hpos htrace, ?_⟩
              rw [List.append_assoc] at hseen
              exact hseen

/-- Every watched search follows a trace. -/
theorem exists_trace_run (watch : Watch (StateM σ)) (o : Options) (start : Nat) (ctx : Context)
    (frames : List Frame) (s : σ) :
    ∃ bs, Trace (Stops watch) o start ctx frames bs ((run watch o start ctx frames).run s).1 := by
  obtain ⟨bs, htrace, -⟩ := exists_trace_noting watch o start ctx frames s []
  exact ⟨bs, htrace⟩

namespace Trace

variable {stops : Prop} {frames : List Frame} {bs : List Branching} {out : Outcome}

theorem mono {stops' : Prop} (h : Trace stops o start ctx frames bs out)
    (hstops : stops → stops') : Trace stops' o start ctx frames bs out := by
  induction h with
  | finished ctx => exact finished ctx
  | stopped ctx f rest h => exact stopped ctx f rest (hstops h)
  | conflict hc h ih => exact conflict hc ih
  | model ctx f rest hc hs => exact model ctx f rest hc hs
  | exhausted ctx f rest hc hs hb => exact exhausted ctx f rest hc hs hb
  | split l hc hs hb hp hv hpos h ih => exact split l hc hs hb hp hv hpos ih

/-- The recorder sees the nodes of the trace that is never stopped. -/
theorem run_recorder (h : Trace False o start ctx frames bs out) (seen : List Branching) :
    (run recorder o start ctx frames).run seen = (out, seen ++ bs) := by
  induction h generalizing seen with
  | finished ctx => rw [run_nil, List.append_nil]
  | stopped ctx f rest h => exact h.elim
  | conflict hc h ih =>
    rw [run_cons_of_proceed recorder _ rfl, step_conflict hc]
    exact ih seen
  | model ctx f rest hc hs =>
    rw [run_cons_of_proceed recorder _ rfl, step_model hc hs, List.append_nil]
    rfl
  | exhausted ctx f rest hc hs hb =>
    rw [run_cons_of_proceed recorder _ rfl, step_exhausted hc hs hb, List.append_nil]
    rfl
  | @split ctx f rest bs out l hc hs hb hp hv hpos h ih =>
    obtain ⟨lighter, hstep⟩ := step_split_of_pick hc hs hb hp hpos
    rw [run_cons_of_proceed recorder _ rfl, hstep]
    change (run recorder o start _ _).run (seen ++ [_]) = _
    rw [ih, List.append_assoc]
    rfl

/-- A watch that never stops a search sees the outcome of the trace. -/
theorem run_eq (h : Trace False o start ctx frames bs out) {watch : Watch (StateM σ)}
    (hgo : ¬ Stops watch) (s : σ) : ((run watch o start ctx frames).run s).1 = out := by
  have hproceed : ∀ s, (watch.proceed.run s).1 = true := by
    intro s
    cases hs : (watch.proceed.run s).1 with
    | true => rfl
    | false => exact absurd ⟨s, hs⟩ hgo
  induction h generalizing s with
  | finished ctx => rw [run_nil]
  | stopped ctx f rest h => exact h.elim
  | conflict hc h ih =>
    rw [run_cons_of_proceed watch _ (hproceed s), step_conflict hc]
    exact ih _
  | model ctx f rest hc hs =>
    rw [run_cons_of_proceed watch _ (hproceed s), step_model hc hs]
    rfl
  | exhausted ctx f rest hc hs hb =>
    rw [run_cons_of_proceed watch _ (hproceed s), step_exhausted hc hs hb]
    rfl
  | @split ctx f rest bs out l hc hs hb hp hv hpos h ih =>
    obtain ⟨lighter, hstep⟩ := step_split_of_pick hc hs hb hp hpos
    rw [run_cons_of_proceed watch _ (hproceed s), hstep]
    exact ih _

/-- A search that is not given up has not been stopped. -/
theorem unstopped (h : Trace stops o start ctx frames bs out) (hout : out.verdict ≠ .aborted) :
    Trace False o start ctx frames bs out := by
  induction h with
  | finished ctx => exact finished ctx
  | stopped ctx f rest h => exact absurd rfl hout
  | conflict hc h ih => exact conflict hc (ih hout)
  | model ctx f rest hc hs => exact model ctx f rest hc hs
  | exhausted ctx f rest hc hs hb => exact absurd rfl hout
  | split l hc hs hb hp hv hpos h ih => exact split l hc hs hb hp hv hpos (ih hout)

/-- Searches that are not stopped end alike. -/
theorem outcome_unique {bs' : List Branching} {out' : Outcome}
    (h : Trace False o start ctx frames bs out) (h' : Trace False o start ctx frames bs' out') :
    out = out' := by
  have hrun := h.run_recorder []
  rw [h'.run_recorder []] at hrun
  exact (congrArg Prod.fst hrun).symm

end Trace

end Search

end FactorSearch
