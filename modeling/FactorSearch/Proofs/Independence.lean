import FactorSearch.Proofs.Interruption

/-!
A search depends on what was done before it through the activity alone. The other numbers of
its context are only added to, and its budget counts from where they stand, so the search of
a used session is that of a new one with its counters on top of the old ones. Heuristics
that ignore the activity do not even depend on that. Both are cases of one simulation: two
runs go on alike as long as their contexts agree in what a search looks at.
-/

namespace FactorSearch

open Search

namespace Context

/-- The counters of a search on top of those there were before it, with its activity. -/
def plus (before gained : Context) : Context where
  activity := gained.activity
  decisions := before.decisions + gained.decisions
  propagations := before.propagations + gained.propagations
  pureLiterals := before.pureLiterals + gained.pureLiterals
  conflicts := before.conflicts + gained.conflicts
  maxDepth := max before.maxDepth gained.maxDepth

def withActivity (ctx : Context) (table : Activity) : Context := { ctx with activity := table }

theorem plus_fresh (ctx : Context) : ctx.plus (fresh.withActivity ctx.activity) = ctx := by
  simp [plus, fresh, withActivity]

theorem plus_simplified (before ctx : Context) (s : Simplification) :
    before.plus (ctx.simplified s) = (before.plus ctx).simplified s := by
  simp [plus, simplified, Nat.add_assoc]

theorem plus_conflicting (before ctx : Context) :
    before.plus ctx.conflicting = (before.plus ctx).conflicting := rfl

theorem plus_branched (before ctx : Context) (h : Heuristic) (b : Branching) :
    before.plus (ctx.branched h b) = (before.plus ctx).branched h b := by
  simp [plus, branched, Nat.add_assoc, Nat.max_assoc]

end Context

namespace Heuristic

theorem pick_congr {h : Heuristic} (hh : h ≠ .activity) (table table' : Activity)
    (cs : List Clause) : h.pick table cs = h.pick table' cs := by
  cases h with
  | weighted => rfl
  | activity => exact absurd rfl hh
  | first => rfl

theorem learn_eq_self {h : Heuristic} (hh : h ≠ .activity) (table : Activity) (v : Int) :
    h.learn table v = table := by
  cases h with
  | weighted => rfl
  | activity => exact absurd rfl hh
  | first => rfl

end Heuristic

namespace Search

/-- Contexts of two runs that agree in all that a search looks at, and keep agreeing. -/
structure Alike (o : Options) (start start' : ℕ) (R : Context → Context → Prop) : Prop where
  budget : ∀ {c c'}, R c c' → withinBudget o start c = withinBudget o start' c'
  pick : ∀ {c c'}, R c c' → ∀ cs,
    o.heuristic.pick c.activity cs = o.heuristic.pick c'.activity cs
  simplified : ∀ {c c'}, R c c' → ∀ s, R (c.simplified s) (c'.simplified s)
  conflicting : ∀ {c c'}, R c c' → R c.conflicting c'.conflicting
  branched : ∀ {c c'}, R c c' → ∀ n a a' v,
    R (c.branched o.heuristic ⟨n, a, v⟩) (c'.branched o.heuristic ⟨n, a', v⟩)

/-- Two runs that end with the same verdict, alike contexts and the same watch. -/
structure EndsAlike {σ : Type} (R : Context → Context → Prop) (found found' : Outcome × σ) :
    Prop where
  verdict : found.1.verdict = found'.1.verdict
  context : R found.1.context found'.1.context
  watch : found.2 = found'.2

variable {σ : Type} {watch : Watch (StateM σ)} {o : Options} {start start' : ℕ}
  {R : Context → Context → Prop}

/-- Runs from alike contexts go on alike, if their watch does not tell the contexts apart. -/
theorem Alike.run (hR : Alike o start start' R)
    (hwatch : ∀ n a a' v, watch.decided ⟨n, a, v⟩ = watch.decided ⟨n, a', v⟩)
    {c c' : Context} (h : R c c') (frames : List Frame) (s : σ) :
    EndsAlike R ((run watch o start c frames).run s) ((run watch o start' c' frames).run s) := by
  -- not on the frames: a split leaves one frame more, and only their bound gets smaller
  induction hb : bound frames using Nat.strong_induction_on generalizing c c' frames s with
  | h k ih =>
    subst hb
    cases frames with
    | nil =>
      rw [run_nil, run_nil]
      exact ⟨rfl, h, rfl⟩
    | cons f rest =>
      cases hgo : (watch.proceed.run s).1 with
      | false =>
        rw [run_cons_of_stop watch rest hgo, run_cons_of_stop watch rest hgo]
        exact ⟨rfl, h, rfl⟩
      | true =>
        rw [run_cons_of_proceed watch rest hgo, run_cons_of_proceed watch rest hgo]
        have hsimple := hR.simplified h (entered o f)
        cases hc : (entered o f).node.contradiction with
        | true =>
          rw [step_conflict hc, step_conflict hc]
          exact ih _ (bound_drop f rest) (hR.conflicting hsimple) rest _ rfl
        | false =>
          cases hs : (entered o f).node.satisfied with
          | true =>
            rw [step_model hc hs, step_model hc hs]
            exact ⟨rfl, hsimple, rfl⟩
          | false =>
            cases hbudget : withinBudget o start c with
            | false =>
              have hbudget' := (hR.budget h).symm.trans hbudget
              rw [step_exhausted hc hs hbudget, step_exhausted hc hs hbudget']
              exact ⟨rfl, hsimple, rfl⟩
            | true =>
              have hbudget' := (hR.budget h).symm.trans hbudget
              obtain ⟨l, lighter, hstep, hp, -, hpos⟩ := step_split hc hs hbudget
              have hp' := (hR.pick h _).symm.trans hp
              obtain ⟨lighter', hstep'⟩ := step_split_of_pick hc hs hbudget' hp' hpos
              rw [hstep, hstep']
              have hlt := bound_split f rest (entered o f).node l.negate l
                (lighter _ rfl) (lighter _ rfl)
              dsimp only
              rw [hwatch _ c.activity c'.activity]
              exact ih _ hlt (hR.branched hsimple _ _ _ _) _ _ rfl

/-- A search on top of earlier counters. -/
theorem alike_plus (o : Options) (before : Context) (start : ℕ) :
    Alike o start (before.decisions + start) (fun c c' => c' = before.plus c) where
  budget := by
    rintro c _ rfl
    simp only [withinBudget, Context.plus, Nat.add_sub_add_left]
  pick := by
    rintro c _ rfl cs
    rfl
  simplified := by
    rintro c _ rfl s
    exact (before.plus_simplified c s).symm
  conflicting := by
    rintro c _ rfl
    exact (before.plus_conflicting c).symm
  branched := by
    rintro c _ rfl n a a' v
    exact (before.plus_branched c o.heuristic ⟨n, a, v⟩).symm

/-- A search with another activity, for a heuristic that ignores it. -/
theorem alike_withActivity {o : Options} (hh : o.heuristic ≠ .activity) (table table' : Activity)
    (start : ℕ) :
    Alike o start start (fun c c' => c.activity = table ∧ c' = c.withActivity table') where
  budget := by
    rintro c _ ⟨-, rfl⟩
    rfl
  pick := by
    rintro c _ ⟨-, rfl⟩ cs
    exact Heuristic.pick_congr hh _ _ cs
  simplified := by
    rintro c _ ⟨hc, rfl⟩ s
    exact ⟨hc, rfl⟩
  conflicting := by
    rintro c _ ⟨hc, rfl⟩
    exact ⟨hc, rfl⟩
  branched := by
    rintro c _ ⟨hc, rfl⟩ n a a' v
    refine ⟨(Heuristic.learn_eq_self hh _ v).trans hc, ?_⟩
    simp only [Context.branched, Context.withActivity, Heuristic.learn_eq_self hh]

end Search

namespace Session

variable {κ κ' : Type} [DecidableEq κ] [DecidableEq κ']

/-- Two solvers that choose, limit and watch alike. -/
structure SameSettings (s : Session κ) (s' : Session κ') : Prop where
  options : s.options = s'.options
  timeLimit : s.timeLimit = s'.timeLimit
  interruptAfter : s.interruptAfter = s'.interruptAfter
  interrupted : s.interrupted = s'.interrupted

/-- Searches of two solvers that end with the same verdict, alike contexts and the same
decisions. -/
structure SolveAlike (R : Context → Context → Prop)
    (found : Outcome × List Decision × Session κ)
    (found' : Outcome × List Decision × Session κ') : Prop where
  verdict : found.1.verdict = found'.1.verdict
  context : R found.1.context found'.1.context
  decisions : found.2.1 = found'.2.1

theorem SameSettings.solve {s : Session κ} {s' : Session κ'} {key : Option κ} {key' : Option κ'}
    {R : Context → Context → Prop} (h : SameSettings s s')
    (hR : Alike s.options (s.searchContext key).decisions (s'.searchContext key').decisions R)
    (hctx : R (s.searchContext key) (s'.searchContext key')) (n : Node) :
    SolveAlike R (s.solve n key) (s'.solve n key') := by
  let w := watch (s.timeLimit.passed 0) s.interruptAfter
  have hwatch : ∀ n a a' v, w.decided ⟨n, a, v⟩ = w.decided ⟨n, a', v⟩ := fun n a a' v => rfl
  have hends := hR.run hwatch hctx [⟨n, none⟩] ⟨s.interrupted, []⟩
  rw [solve_eq, solve_eq, ← h.options, ← h.timeLimit, ← h.interruptAfter, ← h.interrupted]
  exact ⟨hends.verdict, hends.context, congrArg (fun o => o.decisions.reverse) hends.watch⟩

/-- A new solver with the same options, and a new context that holds an activity table. -/
def renewed (s : Session κ) (table : Activity) : Session Unit :=
  { start s.options.heuristic s.options.pureLiterals with
    options := s.options
    interruptAfter := s.interruptAfter
    shared := Table.empty.insert () (Context.fresh.withActivity table) }

omit [DecidableEq κ] in
theorem searchContext_renewed (s : Session κ) (table : Activity) :
    (s.renewed table).searchContext (some ()) = Context.fresh.withActivity table := by
  change ((Table.empty.insert () (Context.fresh.withActivity table)).get? ()).getD Context.fresh = _
  rw [Table.get?_insert, if_pos rfl]
  rfl

theorem solve_renewed {s : Session κ} (hclear : s.interrupted = false)
    (htime : s.timeLimit = none) (n : Node) (key : Option κ) :
    SolveAlike (fun gained c => c = (s.searchContext key).plus gained)
      ((s.renewed (s.searchContext key).activity).solve n (some ())) (s.solve n key) := by
  have hsettings : SameSettings (s.renewed (s.searchContext key).activity) s :=
    ⟨rfl, htime.symm, rfl, hclear.symm⟩
  refine hsettings.solve ?_ ?_ n
  · rw [searchContext_renewed]
    exact alike_plus s.options (s.searchContext key) 0
  · rw [searchContext_renewed, Context.plus_fresh]

omit [DecidableEq κ] in
theorem solve_renewed_withActivity (s : Session κ) (h : s.options.heuristic ≠ .activity)
    (table table' : Activity) (n : Node) :
    SolveAlike (fun c c' => c.activity = table ∧ c' = c.withActivity table')
      ((s.renewed table).solve n (some ())) ((s.renewed table').solve n (some ())) := by
  have hsettings : SameSettings (s.renewed table) (s.renewed table') := ⟨rfl, rfl, rfl, rfl⟩
  refine hsettings.solve ?_ ?_ n
  · rw [searchContext_renewed, searchContext_renewed]
    exact alike_withActivity h table table' 0
  · rw [searchContext_renewed, searchContext_renewed]
    exact ⟨rfl, rfl⟩

/-- Whatever a solver was used for, its search has the verdict and the decisions of a new
solver with the same activity. It adds the counters of the new one to those of its context,
and leaves the activity that the new one leaves. If its heuristic ignores the activity, then
a new solver with any activity will do, and no search changes its activity. -/
theorem solve_independent (heuristic : Heuristic) (pureLiterals : Bool)
    (history : List (Action κ))
    (hclear : ((start heuristic pureLiterals : Session κ).after history).interrupted = false)
    (htime : ((start heuristic pureLiterals : Session κ).after history).timeLimit = none)
    (n : Node) (key : Option κ) :
    let used := (start heuristic pureLiterals : Session κ).after history
    let ctx := used.searchContext key
    SolveAlike (fun gained c => c = ctx.plus gained)
      ((used.renewed ctx.activity).solve n (some ())) (used.solve n key) ∧
    (used.options.heuristic ≠ .activity → ∀ table,
      SolveAlike (fun gained c => gained.activity = table ∧
          c = (ctx.plus gained).withActivity ctx.activity)
        ((used.renewed table).solve n (some ())) (used.solve n key)) := by
  intro used ctx
  have hsame := solve_renewed hclear htime n key
  refine ⟨hsame, fun hh table => ?_⟩
  have hother := used.solve_renewed_withActivity hh table ctx.activity n
  exact {
    verdict := hother.verdict.trans hsame.verdict
    decisions := hother.decisions.trans hsame.decisions
    context := by
      obtain ⟨htable, hactivity⟩ := hother.context
      refine ⟨htable, hsame.context.trans ?_⟩
      rw [hactivity]
      rfl }

/-- A search that was interrupted before, and options that have changed since, leave no trace
but the counters of the shared context. -/
theorem eitherOr_independent :
    let history : List (Action String) :=
      [.configure ⟨.activity, false, none⟩ none (some 1), .solve eitherOr (some "shared"),
        .clearInterrupt, .configure ⟨.weighted, false, some 5⟩ none none]
    let used := (start .first true : Session String).after history
    let ctx := used.searchContext (some "shared")
    used.interrupted = false ∧ used.timeLimit = none ∧ used.options.heuristic ≠ .activity ∧
    SolveAlike (fun gained c => c = ctx.plus gained)
      ((used.renewed ctx.activity).solve eitherOr (some ())) (used.solve eitherOr (some "shared")) ∧
    SolveAlike (fun gained c => gained.activity = Table.empty ∧
        c = (ctx.plus gained).withActivity ctx.activity)
      ((used.renewed Table.empty).solve eitherOr (some ()))
      (used.solve eitherOr (some "shared")) := by
  intro history used ctx
  obtain ⟨hsame, hother⟩ :=
    solve_independent .first true history rfl rfl eitherOr (some "shared")
  have hweighted : used.options.heuristic ≠ .activity := nofun
  exact ⟨rfl, rfl, hweighted, hsame, hother hweighted Table.empty⟩

end Session

end FactorSearch
