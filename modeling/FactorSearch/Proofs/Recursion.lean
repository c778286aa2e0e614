import FactorSearch.DepthFirst
import FactorSearch.Proofs.Trace

/-!
The worklist of a search stands for a recursion on nodes. The recursion is given by rules:
a node is simplified, it fails on a contradiction, succeeds when no clause is left, is given
up when the decisions are spent, and is split otherwise, its true branch being explored only
after the false one has failed. What a derivation says about a node is what the search does
with a frame of the node before it turns to the rest of its worklist, so the search from a
node ends as the rules say, and as the recursive function computes it.
-/

namespace FactorSearch

open Restriction Search

namespace DepthFirst

/-- A simplified node is split on a variable, given by its positive literal. -/
structure SplitOn (o : Options) (start : ℕ) (ctx : Context) (n : Node) (l : Literal) : Prop where
  consistent : n.contradiction = false
  unfinished : n.satisfied = false
  affordable : withinBudget o start ctx = true
  picked : o.heuristic.pick ctx.activity n.clauses = .ok (some l.var)
  positive : l.positive = true

/-- The context in which the branches of a simplified node are explored. -/
def splitContext (o : Options) (ctx : Context) (s : Simplification) (l : Literal) : Context :=
  (ctx.simplified s).branched o.heuristic ⟨s.node, ctx.activity, l.var⟩

/-- Exploring below a node, with the nodes that are split on the way. The low branch makes
the picked variable false, the high one makes it true. -/
inductive Explores (o : Options) (start : ℕ) :
    Context → Node → Outcome → List Branching → Prop
  | conflict {ctx : Context} {n : Node} {s : Simplification}
      (hr : simplify o.pureLiterals n = s) (hc : s.node.contradiction = true) :
      Explores o start ctx n ⟨.unsatisfiable, (ctx.simplified s).conflicting⟩ []
  | model {ctx : Context} {n : Node} {s : Simplification}
      (hr : simplify o.pureLiterals n = s) (hc : s.node.contradiction = false)
      (hs : s.node.satisfied = true) :
      Explores o start ctx n ⟨.satisfiable s.node, ctx.simplified s⟩ []
  | exhausted {ctx : Context} {n : Node} {s : Simplification}
      (hr : simplify o.pureLiterals n = s) (hc : s.node.contradiction = false)
      (hs : s.node.satisfied = false) (hb : withinBudget o start ctx = false) :
      Explores o start ctx n ⟨.aborted, ctx.simplified s⟩ []
  | low {ctx : Context} {n : Node} {s : Simplification} {l : Literal} {out : Outcome}
      {bs : List Branching} (hr : simplify o.pureLiterals n = s)
      (hl : SplitOn o start ctx s.node l)
      (hlow : Explores o start (splitContext o ctx s l) (s.node.child l.negate) out bs)
      (hout : out.verdict ≠ .unsatisfiable) :
      Explores o start ctx n out (⟨s.node, ctx.activity, l.var⟩ :: bs)
  | high {ctx mid : Context} {n : Node} {s : Simplification} {l : Literal} {out : Outcome}
      {bs bs' : List Branching} (hr : simplify o.pureLiterals n = s)
      (hl : SplitOn o start ctx s.node l)
      (hlow : Explores o start (splitContext o ctx s l) (s.node.child l.negate)
        ⟨.unsatisfiable, mid⟩ bs)
      (hhigh : Explores o start mid (s.node.child l) out bs') :
      Explores o start ctx n out (⟨s.node, ctx.activity, l.var⟩ :: (bs ++ bs'))

variable {o : Options} {start : ℕ} {ctx : Context} {n : Node} {f : Frame} {rest : List Frame}
  {bs bs' : List Branching} {out out' : Outcome}

theorem SplitOn.trace {l : Literal} (hl : SplitOn o start ctx (entered o f).node l)
    (h : Trace False o start (splitContext o ctx (entered o f) l)
      (⟨(entered o f).node, some l.negate⟩ :: ⟨(entered o f).node, some l⟩ :: rest) bs out) :
    Trace False o start ctx (f :: rest) (⟨(entered o f).node, ctx.activity, l.var⟩ :: bs) out := by
  obtain ⟨v, hv, hmem⟩ := Heuristic.exists_pick o.heuristic ctx.activity
    (clauses_ne_nil_of_not_satisfied hl.unfinished) (nonempty_of_not_contradiction hl.consistent)
  have hvar : v = l.var := by
    rw [hl.picked] at hv
    exact (Option.some.inj (Except.ok.inj hv)).symm
  exact Trace.split l hl.consistent hl.unfinished hl.affordable hl.picked (hvar ▸ hmem)
    hl.positive h

namespace Explores

/-- Where exploring fails, the search goes on with the rest of its worklist. -/
theorem trace_append (h : Explores o start ctx n out bs) (hf : f.enter = n)
    (hout : out.verdict = .unsatisfiable) (hrest : Trace False o start out.context rest bs' out') :
    Trace False o start ctx (f :: rest) (bs ++ bs') out' := by
  induction h generalizing f rest bs' out' with
  | conflict hr hc =>
    subst hf hr
    exact Trace.conflict hc hrest
  | model hr hc hs => simp at hout
  | exhausted hr hc hs hb => simp at hout
  | low hr hl hlow hne ih => exact absurd hout hne
  | high hr hl hlow hhigh ihlow ihhigh =>
    subst hf hr
    rw [List.cons_append, List.append_assoc]
    exact hl.trace (ihlow rfl rfl (ihhigh rfl hout hrest))

/-- Where exploring does not fail, it ends the search, whatever the rest of the worklist. -/
theorem trace (h : Explores o start ctx n out bs) (hf : f.enter = n)
    (hout : out.verdict ≠ .unsatisfiable) : Trace False o start ctx (f :: rest) bs out := by
  induction h generalizing f rest with
  | conflict hr hc => exact absurd rfl hout
  | model hr hc hs =>
    subst hf hr
    exact Trace.model _ f rest hc hs
  | exhausted hr hc hs hb =>
    subst hf hr
    exact Trace.exhausted _ f rest hc hs hb
  | low hr hl hlow hne ih =>
    subst hf hr
    exact hl.trace (ih rfl hout)
  | high hr hl hlow hhigh ihlow ihhigh =>
    subst hf hr
    -- the low branch fails, so the search comes to the high one with the context it left
    exact hl.trace (hlow.trace_append rfl rfl (ihhigh rfl hout))

/-- The search that starts with the node alone. -/
theorem trace_start (h : Explores o start ctx n out bs) :
    Trace False o start ctx [⟨n, none⟩] bs out := by
  cases hv : out.verdict with
  | unsatisfiable =>
    have hdone := h.trace_append (f := ⟨n, none⟩) rfl hv (Trace.finished out.context)
    rw [List.append_nil, ← hv] at hdone
    exact hdone
  | satisfiable m => exact h.trace rfl (by simp [hv])
  | aborted => exact h.trace rfl (by simp [hv])

end Explores

/-- The recursive function at a node that is split, by what it finds in the low branch. -/
theorem explore_split {s : Simplification} {l : Literal} {low : Exploration}
    (hr : simplify o.pureLiterals n = s) (hl : SplitOn o start ctx s.node l)
    (hlow : explore o start (splitContext o ctx s l) (s.node.child l.negate) = low) :
    let decision : Decision := ⟨l.var, s.node.depth, s.node.vars.length⟩
    explore o start ctx n =
      match low.outcome.verdict with
      | .unsatisfiable =>
        let high := explore o start low.outcome.context (s.node.child l)
        ⟨high.outcome, decision :: (low.decisions ++ high.decisions)⟩
      | _ => ⟨low.outcome, decision :: low.decisions⟩ := by
  subst hr hlow
  obtain ⟨lighter, hstep⟩ := step_split_of_pick (f := ⟨n, none⟩) hl.consistent hl.unfinished
    hl.affordable hl.picked hl.positive
  rw [explore, hstep]
  rfl

/-- The recursive function follows the rules below a node. -/
def Follows (o : Options) (start : ℕ) (ctx : Context) (n : Node) : Prop :=
  ∃ bs, Explores o start ctx n (explore o start ctx n).outcome bs ∧
    bs.map Branching.decision = (explore o start ctx n).decisions

theorem Follows.split {s : Simplification} {l : Literal} (hr : simplify o.pureLiterals n = s)
    (hl : SplitOn o start ctx s.node l)
    (hlow : Follows o start (splitContext o ctx s l) (s.node.child l.negate))
    (hhigh : ∀ mid, Follows o start mid (s.node.child l)) : Follows o start ctx n := by
  obtain ⟨bs, hexplores, hbs⟩ := hlow
  have hsplit := explore_split hr hl rfl
  unfold Follows
  generalize explore o start (splitContext o ctx s l) _ = low at hexplores hbs hsplit
  obtain ⟨⟨verdict, mid⟩, ds⟩ := low
  rw [hsplit]
  cases verdict with
  | unsatisfiable =>
    obtain ⟨bs', hexplores', hbs'⟩ := hhigh mid
    refine ⟨_, Explores.high hr hl hexplores hexplores', ?_⟩
    rw [List.map_cons, List.map_append, hbs, hbs']
    rfl
  | satisfiable m =>
    refine ⟨_, Explores.low hr hl hexplores (by simp), ?_⟩
    rw [List.map_cons, hbs]
    rfl
  | aborted =>
    refine ⟨_, Explores.low hr hl hexplores (by simp), ?_⟩
    rw [List.map_cons, hbs]
    rfl

theorem follows (o : Options) (start : ℕ) (ctx : Context) (n : Node) :
    Follows o start ctx n := by
  induction hw : weight n.clauses using Nat.strong_induction_on generalizing ctx n with
  | h k ih =>
    subst hw
    cases hc : (entered o ⟨n, none⟩).node.contradiction with
    | true =>
      rw [Follows, explore, step_conflict hc]
      exact ⟨[], Explores.conflict rfl hc, rfl⟩
    | false =>
      cases hs : (entered o ⟨n, none⟩).node.satisfied with
      | true =>
        rw [Follows, explore, step_model hc hs]
        exact ⟨[], Explores.model rfl hc hs, rfl⟩
      | false =>
        cases hb : withinBudget o start ctx with
        | false =>
          rw [Follows, explore, step_exhausted hc hs hb]
          exact ⟨[], Explores.exhausted rfl hc hs hb, rfl⟩
        | true =>
          obtain ⟨l, lighter, -, hp, -, hpos⟩ := step_split hc hs hb
          exact Follows.split rfl ⟨hc, hs, hb, hp, hpos⟩
            (ih _ (lighter l.negate rfl) _ _ rfl) (fun mid => ih _ (lighter l rfl) mid _ rfl)

end DepthFirst

/-- The search from a node, whatever counters it starts with, ends as the rules say and only
so, and it ends as the recursion does: with the same verdict and node, the same counters and
activity, and the same decisions in the same order. Whoever watches without stopping it sees
the same outcome. -/
theorem search_eq_recursion (o : Options) (start : ℕ) (ctx : Context) (n : Node) :
    (∀ out bs, (run recorder o start ctx [⟨n, none⟩]).run [] = (out, bs) ↔
      DepthFirst.Explores o start ctx n out bs) ∧
    (∃ bs, (run recorder o start ctx [⟨n, none⟩]).run [] =
        ((DepthFirst.explore o start ctx n).outcome, bs) ∧
      bs.map Branching.decision = (DepthFirst.explore o start ctx n).decisions) ∧
    ∀ (σ : Type) (watch : Watch (StateM σ)) (s : σ), ¬ Stops watch →
      ((run watch o start ctx [⟨n, none⟩]).run s).1 =
        (DepthFirst.explore o start ctx n).outcome := by
  obtain ⟨bs, hexplores, hdecisions⟩ := DepthFirst.follows o start ctx n
  have hrun := hexplores.trace_start.run_recorder []
  refine ⟨fun out bs' => ⟨fun h => ?_, fun h => h.trace_start.run_recorder []⟩,
    ⟨bs, hrun, hdecisions⟩, fun σ watch s hgo => hexplores.trace_start.run_eq hgo s⟩
  rw [hrun, Prod.mk.injEq] at h
  obtain ⟨rfl, rfl⟩ := h
  exact hexplores

end FactorSearch
