import FactorSearch.Proofs.Branching
import FactorSearch.Proofs.History

/-!
Searches that are cut short follow the unlimited search up to the cut. A budget is looked
at just before a decision, an interrupt just before a branch: a search that needs no more
decisions than its budget is not touched by it, while an interrupt after the last decision
still counts. Where a search is given up, it has made the first decisions of the unlimited
one, and it leaves the activity that the unlimited one had after them. The number of
decisions made before the search plays no part.
-/

namespace FactorSearch

open Search

namespace Search

/-- The same options with another limit on the decisions. -/
def Options.limit (o : Options) (budget : Option ℕ) : Options := { o with decisionBudget := budget }

/-- The activity of a run after its first `k` decisions: what the next decision reads, or
what the run leaves if there is none. -/
def activityAfter (bs : List Branching) (out : Outcome) (k : ℕ) : Activity :=
  (bs[k]?.map Branching.activity).getD out.context.activity

/-- A run that starts like another one and is given up after `k` decisions. -/
structure GivenUp (ctx : Context) (bs : List Branching) (out : Outcome) (k : ℕ) (cut : Outcome) :
    Prop where
  aborted : cut.verdict = .aborted
  decisions : cut.context.decisions = ctx.decisions + k
  activity : cut.context.activity = activityAfter bs out k

namespace Trace

variable {stops : Prop} {o : Options} {start : ℕ} {ctx : Context} {frames : List Frame}
  {bs : List Branching} {out : Outcome}

/-- Nothing but a decision changes the activity. -/
theorem activityAfter_zero (h : Trace stops o start ctx frames bs out) :
    activityAfter bs out 0 = ctx.activity := by
  induction h with
  | finished ctx => rfl
  | stopped ctx f rest h => rfl
  | conflict hc h ih => exact ih
  | model ctx f rest hc hs => rfl
  | exhausted ctx f rest hc hs hb => rfl
  | split l hc hs hb hp hv hpos h ih => rfl

theorem givenUp_zero (h : Trace stops o start ctx frames bs out) :
    GivenUp ctx bs out 0 ⟨.aborted, ctx⟩ := ⟨rfl, rfl, h.activityAfter_zero.symm⟩

end Trace

namespace GivenUp

variable {ctx : Context} {bs : List Branching} {out cut : Outcome} {k : ℕ} {s : Simplification}

theorem conflict (h : GivenUp (ctx.simplified s).conflicting bs out k cut) :
    GivenUp ctx bs out k cut := ⟨h.aborted, h.decisions, h.activity⟩

theorem split {heuristic : Heuristic} {b : Branching}
    (h : GivenUp ((ctx.simplified s).branched heuristic b) bs out k cut) :
    GivenUp ctx (b :: bs) out (k + 1) cut where
  aborted := h.aborted
  decisions := by
    have hdecisions := h.decisions
    simp only [Context.branched, Context.simplified] at hdecisions
    omega
  activity := h.activity

end GivenUp

namespace Trace

variable {o : Options} {start : ℕ} {ctx : Context} {frames : List Frame}
  {bs : List Branching} {out : Outcome}

theorem withinBudget_limit {B : ℕ} (h : ctx.decisions < start + B)
    (hstart : start ≤ ctx.decisions) :
    withinBudget (o.limit (some B)) start ctx = true := by
  simp only [withinBudget, Options.limit, decide_eq_true_eq]
  omega

/-- A budget that suffices changes nothing. -/
theorem limit_of_le {B : ℕ} (h : Trace False (o.limit none) start ctx frames bs out)
    (hstart : start ≤ ctx.decisions) (hB : ctx.decisions + bs.length ≤ start + B) :
    Trace False (o.limit (some B)) start ctx frames bs out := by
  induction h with
  | finished ctx => exact finished ctx
  | stopped ctx f rest h => exact h.elim
  | conflict hc h ih => exact conflict hc (ih hstart hB)
  | model ctx f rest hc hs => exact model ctx f rest hc hs
  | exhausted ctx f rest hc hs hb => simp [withinBudget, Options.limit] at hb
  | split l hc hs hb hp hv hpos h ih =>
    rw [List.length_cons] at hB
    have hroom := withinBudget_limit (o := o) (B := B) (by omega) hstart
    refine split l hc hs hroom hp hv hpos (ih ?_ ?_)
    · exact Nat.le_succ_of_le hstart
    · simp only [Context.branched, Context.simplified]
      omega

/-- A budget that does not suffice gives the run up at the first decision beyond it. -/
theorem limit_of_lt {B k : ℕ} (h : Trace False (o.limit none) start ctx frames bs out)
    (hstart : start ≤ ctx.decisions) (hB : ctx.decisions + k = start + B) (hk : k < bs.length) :
    ∃ cut, Trace False (o.limit (some B)) start ctx frames (bs.take k) cut ∧
      GivenUp ctx bs out k cut := by
  induction h generalizing k with
  | finished ctx => simp at hk
  | stopped ctx f rest h => exact h.elim
  | conflict hc h ih =>
    obtain ⟨cut, htrace, hcut⟩ := ih hstart hB hk
    exact ⟨cut, conflict hc htrace, hcut.conflict⟩
  | model ctx f rest hc hs => simp at hk
  | exhausted ctx f rest hc hs hb => simp at hk
  | @split ctx f rest bs out l hc hs hb hp hv hpos h ih =>
    cases k with
    | zero =>
      have hspent : withinBudget (o.limit (some B)) start ctx = false := by
        simp only [withinBudget, Options.limit, decide_eq_false_iff_not]
        omega
      have hcut := (split l hc hs hb hp hv hpos h).givenUp_zero
      exact ⟨_, exhausted ctx f rest hc hs hspent, hcut.aborted, hcut.decisions, hcut.activity⟩
    | succ k =>
      have hroom := withinBudget_limit (o := o) (B := B) (by omega) hstart
      rw [List.length_cons] at hk
      obtain ⟨cut, htrace, hcut⟩ := ih (k := k) (Nat.le_succ_of_le hstart)
        (by simp only [Context.branched, Context.simplified]; omega) (by omega)
      exact ⟨cut, split l hc hs hroom hp hv hpos htrace, hcut.split⟩

/-- A session's watch notes each split, and interrupts the search if it is due. -/
theorem run_watch_split {f : Frame} {rest : List Frame} {l : Literal} {due : Option ℕ}
    {seen : List Decision} (hc : (entered o f).node.contradiction = false)
    (hs : (entered o f).node.satisfied = false) (hb : withinBudget o start ctx = true)
    (hp : o.heuristic.pick ctx.activity (entered o f).node.clauses = .ok (some l.var))
    (hpos : l.positive = true) :
    let b : Branching := ⟨(entered o f).node, ctx.activity, l.var⟩
    (run (Session.watch false due) o start ctx (f :: rest)).run ⟨false, seen⟩ =
      (run (Session.watch false due) o start ((ctx.simplified (entered o f)).branched o.heuristic b)
        (⟨(entered o f).node, some l.negate⟩ :: ⟨(entered o f).node, some l⟩ :: rest)).run
        ⟨due.any (· ≤ seen.length + 1), b.decision :: seen⟩ := by
  obtain ⟨lighter, hstep⟩ := step_split_of_pick hc hs hb hp hpos
  rw [run_cons_of_proceed _ _ rfl, hstep]
  rfl

/-- A search runs to its end if the interrupt is due later. -/
theorem run_watch (h : Trace False o start ctx frames bs out) (seen : List Decision)
    {due : Option ℕ}
    (hdue : ∀ k, due = some k → seen.length + bs.length < k) :
    (run (Session.watch false due) o start ctx frames).run ⟨false, seen⟩ =
      (out, ⟨false, (bs.map Branching.decision).reverse ++ seen⟩) := by
  induction h generalizing seen with
  | finished ctx =>
    rw [run_nil]
    rfl
  | stopped ctx f rest h => exact h.elim
  | conflict hc h ih =>
    rw [run_cons_of_proceed _ _ rfl, step_conflict hc]
    exact ih seen hdue
  | model ctx f rest hc hs =>
    rw [run_cons_of_proceed _ _ rfl, step_model hc hs]
    rfl
  | exhausted ctx f rest hc hs hb =>
    rw [run_cons_of_proceed _ _ rfl, step_exhausted hc hs hb]
    rfl
  | @split ctx f rest bs out l hc hs hb hp hv hpos h ih =>
    have hlater : due.any (· ≤ seen.length + 1) = false := by
      cases due with
      | none => rfl
      | some k =>
        have hk := hdue k rfl
        rw [List.length_cons] at hk
        rw [Option.any_some, decide_eq_false_iff_not]
        omega
    rw [run_watch_split hc hs hb hp hpos, hlater, ih]
    · rw [List.map_cons, List.reverse_cons, List.append_assoc]
      rfl
    · intro k hk
      have hroom := hdue k hk
      rw [List.length_cons] at hroom ⊢
      omega

/-- An interrupt that falls due stops the search before its next branch. -/
theorem run_watch_of_le (h : Trace False o start ctx frames bs out) (seen : List Decision)
    {due k : ℕ} (hdue : seen.length + (k + 1) = due) (hk : k < bs.length) :
    ∃ cut, (run (Session.watch false (some due)) o start ctx frames).run ⟨false, seen⟩ =
        (cut, ⟨true, ((bs.take (k + 1)).map Branching.decision).reverse ++ seen⟩) ∧
      GivenUp ctx bs out (k + 1) cut := by
  induction h generalizing seen k with
  | finished ctx => simp at hk
  | stopped ctx f rest h => exact h.elim
  | conflict hc h ih =>
    rw [run_cons_of_proceed _ _ rfl, step_conflict hc]
    obtain ⟨cut, hrun, hcut⟩ := ih seen hdue hk
    exact ⟨cut, hrun, hcut.conflict⟩
  | model ctx f rest hc hs => simp at hk
  | exhausted ctx f rest hc hs hb => simp at hk
  | @split ctx f rest bs out l hc hs hb hp hv hpos h ih =>
    rw [run_watch_split hc hs hb hp hpos]
    cases k with
    | zero =>
      have hnow : (some due).any (· ≤ seen.length + 1) = true := by
        rw [Option.any_some, decide_eq_true_iff]
        omega
      -- the split itself is counted, and the next branch is not entered
      rw [hnow, run_cons_of_stop _ _ rfl]
      exact ⟨_, rfl, h.givenUp_zero.split⟩
    | succ k =>
      have hlater : (some due).any (· ≤ seen.length + 1) = false := by
        rw [Option.any_some, decide_eq_false_iff_not]
        omega
      have hnext : (Branching.decision ⟨(entered o f).node, ctx.activity, l.var⟩ :: seen).length +
          (k + 1) = due := by
        rw [List.length_cons]
        omega
      rw [hlater]
      obtain ⟨cut, hrun, hcut⟩ := ih _ hnext (Nat.lt_of_succ_lt_succ hk)
      refine ⟨cut, ?_, hcut.split⟩
      rw [hrun, List.take_succ_cons, List.map_cons, List.reverse_cons, List.append_assoc]
      rfl

end Trace

end Search

namespace Session

variable {κ : Type} [DecidableEq κ]

/-- The search of a session is a given run, decision for decision. -/
structure Completes (s : Session κ) (n : Node) (key : Option κ) (bs : List Branching)
    (out : Outcome) : Prop where
  outcome : (s.solve n key).1 = out
  decisions : (s.solve n key).2.1 = bs.map Branching.decision

/-- The search of a session is given up after the first `k` decisions of a given run. -/
structure GivesUp (s : Session κ) (n : Node) (key : Option κ) (bs : List Branching)
    (out : Outcome) (k : ℕ) : Prop where
  outcome : GivenUp (s.searchContext key) bs out k (s.solve n key).1
  decisions : (s.solve n key).2.1 = (bs.take k).map Branching.decision

/-- Every search is given up before its first decision and leaves all contexts as they are. -/
def Refuses (s : Session κ) : Prop := ∀ n key,
  (s.solve n key).1 = ⟨.aborted, s.searchContext key⟩ ∧ (s.solve n key).2.1 = [] ∧
    ∀ x, (s.solve n key).2.2.context x = s.context x

variable {s : Session κ} {n : Node} {key : Option κ} {bs : List Branching} {out : Outcome}

theorem completes_of_trace (hclear : s.interrupted = false) (htime : s.timeLimit = none)
    (h : Trace False s.options (s.searchContext key).decisions (s.searchContext key)
      [⟨n, none⟩] bs out)
    (hdue : ∀ k, s.interruptAfter = some k → bs.length < k) : s.Completes n key bs out := by
  have hrun := h.run_watch [] (fun k hk => by simpa using hdue k hk)
  obtain ⟨hout, hdecisions, -⟩ := s.solve_of_run hclear htime hrun
  rw [List.append_nil, List.reverse_reverse] at hdecisions
  exact ⟨hout, hdecisions⟩

theorem givesUp_of_trace {k : ℕ} (hclear : s.interrupted = false) (htime : s.timeLimit = none)
    (h : Trace False s.options (s.searchContext key).decisions (s.searchContext key)
      [⟨n, none⟩] bs out)
    (hdue : s.interruptAfter = some (k + 1)) (hk : k < bs.length) :
    s.GivesUp n key bs out (k + 1) ∧ (s.solve n key).2.2.interrupted = true := by
  obtain ⟨cut, hrun, hcut⟩ := h.run_watch_of_le [] (Nat.zero_add _) hk
  rw [← hdue] at hrun
  obtain ⟨hout, hdecisions, hflag⟩ := s.solve_of_run hclear htime hrun
  rw [List.append_nil, List.reverse_reverse] at hdecisions
  exact ⟨⟨hout ▸ hcut, hdecisions⟩, hflag⟩

theorem refuses_of_interrupted (h : s.interrupted = true) : s.Refuses := by
  intro n key
  obtain ⟨hout, hdecisions, -, hcontexts⟩ := s.solve_of_interrupted h n key
  exact ⟨hout, hdecisions, hcontexts⟩

/-- Below a node the unlimited search of a session makes certain decisions. The search with a
budget of so many decisions or more is the same; with a smaller one it is given up after the
first decisions, as many as the budget allows. The search that is interrupted at a decision
is the same if it does not come to that decision; otherwise it is given up right after it,
and then every search is refused until the interrupt is cleared, whatever is done between. -/
theorem solve_cut_short (s : Session κ) (hclear : s.interrupted = false)
    (htime : s.timeLimit = none) (n : Node) (key : Option κ) :
    let free : Session κ := { s with options := s.options.limit none, interruptAfter := none }
    ∃ out bs, (Search.solve recorder free.options n (s.searchContext key)).run [] = (out, bs) ∧
      out.context.decisions = (s.searchContext key).decisions + bs.length ∧
      free.Completes n key bs out ∧
      (∀ B, let limited := { free with options := s.options.limit (some B) }
        (bs.length ≤ B → limited.Completes n key bs out) ∧
        (B < bs.length → limited.GivesUp n key bs out B)) ∧
      ∀ k, 0 < k → let interrupting := { free with interruptAfter := some k }
        (bs.length < k → interrupting.Completes n key bs out) ∧
        (k ≤ bs.length → interrupting.GivesUp n key bs out k ∧
          ∀ history, .clearInterrupt ∉ history →
            ((interrupting.solve n key).2.2.after history).Refuses) := by
  intro free
  obtain ⟨out, bs, htrace, hrun⟩ := exists_trace_solve free.options n (s.searchContext key)
  refine ⟨out, bs, hrun, htrace.decisions_eq, ?_, fun B => ⟨fun hB => ?_, fun hB => ?_⟩,
    fun k hk => ⟨fun hlater => ?_, fun hdue => ?_⟩⟩
  · exact completes_of_trace hclear htime htrace (by simp [free])
  · have hlimited := htrace.limit_of_le le_rfl (Nat.add_le_add_left hB _)
    exact completes_of_trace hclear htime hlimited (by simp [free])
  · obtain ⟨cut, hlimited, hcut⟩ := htrace.limit_of_lt le_rfl rfl hB
    have hcompletes := completes_of_trace (s := { free with options := s.options.limit (some B) })
      hclear htime hlimited (by simp [free])
    exact ⟨hcompletes.outcome ▸ hcut, hcompletes.decisions⟩
  · refine completes_of_trace hclear htime htrace ?_
    intro j hj
    cases hj
    exact hlater
  · obtain ⟨j, rfl⟩ : ∃ j, k = j + 1 := ⟨k - 1, by omega⟩
    obtain ⟨hgives, hflag⟩ := givesUp_of_trace
      (s := { free with interruptAfter := some (j + 1) }) hclear htime htrace rfl hdue
    exact ⟨hgives, fun history hhistory =>
      refuses_of_interrupted (interrupted_after _ hflag hhistory)⟩

/-- Two variables of which exactly one is true. -/
def eitherOr : Node :=
  let x (positive : Bool) : Literal := ⟨1, positive, by decide⟩
  let y (positive : Bool) : Literal := ⟨2, positive, by decide⟩
  Node.ofSources [.written [x true, y true], .written [x false, y false]]

/-- Neither value of a variable is forced here, so the search has to decide. -/
theorem length_pos_of_eitherOr {o : Options} {start : ℕ} {ctx : Context}
    (h : o.pureLiterals = false)
    (htrace : Trace False (o.limit none) start ctx [⟨eitherOr, none⟩] bs out) : 0 < bs.length := by
  have hstays : UnitPropagation.propagate eitherOr = ⟨eitherOr, 0⟩ :=
    UnitPropagation.propagate_eq_self (by decide)
  have hentered : entered (o.limit none) ⟨eitherOr, none⟩ = ⟨eitherOr, 0, 0⟩ := by
    simp [entered, Options.limit, Frame.enter, Search.simplify, h, hstays]
  cases htrace with
  | stopped ctx f rest h => exact h.elim
  | conflict hc h =>
    rw [hentered] at hc
    exact absurd hc (by decide)
  | model ctx f rest hc hs =>
    rw [hentered] at hs
    exact absurd hs (by decide)
  | exhausted ctx f rest hc hs hb => simp [Search.withinBudget, Options.limit] at hb
  | split l hc hs hb hp hv hpos h => exact Nat.succ_pos _

/-- A search below two variables that must differ makes a decision, so no budget at all and
an interrupt at the first decision both cut it short. -/
theorem eitherOr_cut_short :
    let s : Session String := Session.start .activity false
    s.interrupted = false ∧ s.timeLimit = none ∧
    ∃ out bs, (Search.solve recorder s.options eitherOr Context.fresh).run [] = (out, bs) ∧
      0 < bs.length ∧
      GivesUp { s with options := s.options.limit (some 0) } eitherOr none bs out 0 ∧
      GivesUp { s with interruptAfter := some 1 } eitherOr none bs out 1 := by
  intro s
  obtain ⟨out, bs, hrun, -, -, hbudget, hinterrupt⟩ := solve_cut_short s rfl rfl eitherOr none
  obtain ⟨out', bs', htrace, hrun'⟩ := exists_trace_solve (s.options.limit none) eitherOr
    Context.fresh
  have hsame : (out', bs') = (out, bs) := hrun'.symm.trans hrun
  cases hsame
  have hsplits := length_pos_of_eitherOr rfl htrace
  exact ⟨rfl, rfl, out, bs, hrun, hsplits, (hbudget 0).2 hsplits,
    ((hinterrupt 1 Nat.one_pos).2 hsplits).1⟩

end Session

end FactorSearch
