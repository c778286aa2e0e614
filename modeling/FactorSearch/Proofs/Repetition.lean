import FactorSearch.Proofs.FileWrites
import FactorSearch.Proofs.WrittenVerdicts

/-!
A problem that is processed twice, from files in which its paths lead to the same. It makes
the same record but for the time that was measured, and changes the files alike. Only time
can make a difference: where it passes and is limited, one of the searches may have been
given up.
-/

namespace FactorSearch

open FileHost Search World

namespace World

/-- Where the solution of a problem is kept. -/
def SolutionAt (w : World) (p : Path) (q : Place) : Prop :=
  ∃ sol, p.solution = .ok sol ∧ w.Leads sol.text q

/-- A place at which the path of a problem does not end, and where its solution does not lie. -/
structure Foreign (w : World) (p : Path) (q : Place) : Prop where
  problem : ¬ w.EndsAt p.text q
  solution : ¬ w.SolutionAt p q

variable {w v : World} {p sol : Path} {f : Factorisation} {useCache cached : Bool}

theorem exists_leads_of_problem (h : w.problem p = .ok f) : ∃ P, w.Leads p.text P := by
  unfold problem at h
  split at h
  · cases h
  · rename_i hread
    obtain ⟨P, -, hP, -⟩ := exists_leads_of_read hread
    exact ⟨P, hP⟩

section Puts

variable (hputs : Puts (w.Foreign p) w v)
include hputs

theorem locate_problem_of_puts : v.locate p.text = w.locate p.text :=
  hputs.locate_eq fun _ hq hforeign => hforeign.problem hq

variable (hp : p.Normal)
include hp

theorem locate_solution_of_leads {P : Place} (hP : w.Leads p.text P) (hsol : p.solution = .ok sol) :
    v.locate sol.text = w.locate sol.text := by
  refine hputs.vacant.locate_eq ?_
  rintro q hq ⟨hforeign, hvacant⟩
  rcases leads_of_endsAt_solution hp hsol hP hq with hleads | hdirectory
  · exact hforeign.solution ⟨sol, hsol, hleads⟩
  · exact hvacant.not_directory hdirectory

/-- What is prepared for a problem does not depend on files at foreign places. -/
theorem prepared_of_puts : v.prepared p useCache = w.prepared p useCache := by
  have hread := read_congr (locate_problem_of_puts hputs)
  cases hproblem : w.problem p with
  | error e =>
    have hproblem' : v.problem p = .error e := by
      rw [← hproblem]
      unfold problem
      rw [hread]
    unfold prepared
    rw [hproblem, hproblem']
  | ok f =>
    obtain ⟨P, hP⟩ := exists_leads_of_problem hproblem
    exact prepared_congr hread fun sol hsol =>
      present_congr (locate_solution_of_leads hputs hp hP hsol)

theorem locate_solution_of_puts (h : w.prepared p useCache = .ok (f, sol, cached)) :
    v.locate sol.text = w.locate sol.text := by
  obtain ⟨hproblem, hsol⟩ := problem_of_prepared h
  obtain ⟨P, hP⟩ := exists_leads_of_problem hproblem
  exact locate_solution_of_leads hputs hp hP hsol

end Puts

end World

namespace ProblemRecord

/-- The record without the time that a search has taken. -/
def untimed (record : ProblemRecord) : ProblemRecord :=
  match record.result with
  | .solved (.search ctx _) status factors =>
    { record with result := .solved (.search ctx none) status factors }
  | _ => record

end ProblemRecord

namespace Search

variable {σ : Type}

/-- Searches end alike whose watches always give one answer. -/
theorem solve_eq_of_proceed {watch watch' : Watch (StateM σ)} {go : Bool}
    (h : ∀ s, (watch.proceed.run s).1 = go) (h' : ∀ s, (watch'.proceed.run s).1 = go)
    (o : Options) (n : Node) (s s' : σ) :
    ((Search.solve watch o n Context.fresh).run s).1 =
      ((Search.solve watch' o n Context.fresh).run s').1 := by
  cases go with
  | true =>
    have hstops : ¬ Stops watch := fun ⟨s, hs⟩ => by rw [h s] at hs; cases hs
    have hstops' : ¬ Stops watch' := fun ⟨s, hs⟩ => by rw [h' s] at hs; cases hs
    obtain ⟨bs, htrace⟩ := exists_trace_run watch o 0 Context.fresh [⟨n, none⟩] s
    obtain ⟨bs', htrace'⟩ := exists_trace_run watch' o 0 Context.fresh [⟨n, none⟩] s'
    exact (htrace.mono hstops).outcome_unique (htrace'.mono hstops')
  | false =>
    have hrun : (Search.solve watch o n Context.fresh).run s =
        (⟨.aborted, Context.fresh⟩, (watch.proceed.run s).2) := run_cons_of_stop watch [] (h s)
    have hrun' : (Search.solve watch' o n Context.fresh).run s' =
        (⟨.aborted, Context.fresh⟩, (watch'.proceed.run s').2) := run_cons_of_stop watch' [] (h' s')
    rw [hrun, hrun']

/-- Searches end alike that are not given up. -/
theorem solve_eq_of_decided (watch watch' : Watch (StateM σ)) (o : Options) (n : Node) (s s' : σ)
    (h : ((Search.solve watch o n Context.fresh).run s).1.verdict ≠ .aborted)
    (h' : ((Search.solve watch' o n Context.fresh).run s').1.verdict ≠ .aborted) :
    ((Search.solve watch o n Context.fresh).run s).1 =
      ((Search.solve watch' o n Context.fresh).run s').1 := by
  obtain ⟨bs, htrace⟩ := exists_trace_run watch o 0 Context.fresh [⟨n, none⟩] s
  obtain ⟨bs', htrace'⟩ := exists_trace_run watch' o 0 Context.fresh [⟨n, none⟩] s'
  exact (htrace.unstopped h).outcome_unique (htrace'.unstopped h')

end Search

namespace Batch

variable {σ : Type} [FileHost σ] {r : BatchRequest} {paths : List String}

section Clock

/-- No time passes on the host. -/
def Still (σ : Type) [FileHost σ] : Prop := ∀ s s' : σ, reading s = reading s'

/-- Time passes on the host, and the request limits it. -/
def Timed (σ : Type) [FileHost σ] (r : BatchRequest) : Prop :=
  ¬ Still σ ∧ ∃ limit, r.timeLimit = .given (some limit)

variable {n : Node} {out out' : Outcome}

/-- Without time or a limit of it, a watch answers alike whenever it is asked. -/
theorem exists_proceed {limit : TimeLimit} (h : Still σ ∨ limit = none) :
    ∃ go, ∀ (threshold : ℕ) (progress : Bool) (name : String) (s₀ s : σ),
      ((watch (m := StateM σ) threshold limit progress name (reading s₀)).proceed.run s).1 = go := by
  cases limit with
  | none => exact ⟨true, fun _ _ _ _ _ => rfl⟩
  | some l =>
    have hstill : Still σ := h.resolve_right fun h => nomatch h
    refine ⟨!TimeLimit.passed (some l) 0, fun threshold progress name s₀ s => ?_⟩
    show (!TimeLimit.passed (some l) (reading s - reading s₀)) = _
    rw [hstill s s₀, Nat.sub_self]

/-- Two searches of one request below one node end alike, unless time has made a difference. -/
theorem Sought.eq_or_timed (h : Sought σ r n out) (h' : Sought σ r n out') :
    out = out' ∨ Timed σ r ∧
      (out.verdict.status = .indeterminate ∨ out'.verdict.status = .indeterminate) := by
  obtain ⟨heuristic, limit, budget, hh, hlimit, hbudget, threshold, name, s₀, s, rfl⟩ := h
  obtain ⟨heuristic', limit', budget', hh', hlimit', hbudget', threshold', name', s₀', s', rfl⟩ := h'
  obtain rfl : heuristic = heuristic' := Setting.given.inj (hh.symm.trans hh')
  obtain rfl : limit = limit' := Setting.given.inj (hlimit.symm.trans hlimit')
  obtain rfl : budget = budget' := by
    rcases hbudget with hbudget | ⟨hbare, rfl⟩ <;> rcases hbudget' with hbudget' | ⟨hbare', rfl⟩
    · exact Setting.given.inj (hbudget.symm.trans hbudget')
    · exact nomatch hbudget.symm.trans hbare'
    · exact nomatch hbare.symm.trans hbudget'
    · rfl
  by_cases hsteady : Still σ ∨ limit = none
  · obtain ⟨go, hgo⟩ := exists_proceed hsteady
    exact Or.inl (solve_eq_of_proceed (hgo threshold r.progress name s₀)
      (hgo threshold' r.progress name' s₀') _ n s s')
  · obtain ⟨hstill, hlimited⟩ := not_or.1 hsteady
    obtain ⟨l, rfl⟩ := Option.ne_none_iff_exists'.1 hlimited
    rw [or_iff_not_imp_right]
    intro hdecided
    have hdecided := not_or.1 fun h => hdecided ⟨⟨hstill, l, hlimit⟩, h⟩
    refine solve_eq_of_decided _ _ _ n s s' (fun h => hdecided.1 ?_) fun h => hdecided.2 ?_
    · rw [h]
      rfl
    · rw [h]
      rfl

end Clock

section Records

variable {p sol : Path} {w w' v v' : World} {f : Factorisation} {out : Outcome}
  {values : Option (Table Int Bool)} {result result' : Except Fault ProblemRecord}
  {record record' : ProblemRecord}

theorem not_reported_of_unreported {e : Fault} (he : Unreported r e) :
    reported p (.error e) ≠ some record := by
  cases he <;> exact fun h => nomatch h

/-- The source of a verdict goes into its record and decides nothing. -/
theorem exists_conclude_eq_map (f : Factorisation) (p : Path) (status : Status)
    (values : Option (Table Int Bool)) :
    ∃ x : Except Fault (Option Factors), ∀ source, conclude f p source status values =
      x.map fun factors => ⟨p.text, .solved source status factors⟩ := by
  by_cases hstatus : status = .satisfiable
  · cases hfactors : f.factors values with
    | error e =>
      refine ⟨.error (.factor e), fun source => ?_⟩
      rw [conclude, if_pos hstatus, hfactors]
      rfl
    | ok factors =>
      cases hline : factorLine factors with
      | error e =>
        refine ⟨.error e, fun source => ?_⟩
        simp only [conclude, if_pos hstatus, hfactors, hline]
        rfl
      | ok line =>
        refine ⟨.ok (some factors), fun source => ?_⟩
        simp only [conclude, if_pos hstatus, hfactors, hline]
        rfl
  · refine ⟨.ok none, fun source => ?_⟩
    rw [conclude, if_neg hstatus]
    rfl

theorem untimed_eq_of_conclude {ctx : Context} {seconds seconds' : Option Binary64} {status : Status}
    (h : reported p (conclude f p (.search ctx seconds) status values) = some record)
    (h' : reported p (conclude f p (.search ctx seconds') status values) = some record') :
    record'.untimed = record.untimed := by
  obtain ⟨x, hx⟩ := exists_conclude_eq_map f p status values
  rw [hx] at h h'
  cases x with
  | error e => exact congrArg ProblemRecord.untimed (Option.some.inj (h'.symm.trans h))
  | ok factors =>
    cases h
    cases h'
    rfl

theorem saved_congr {status : Status} (hlocate : v.locate sol.text = w.locate sol.text)
    (hsol : p.solution = .ok sol) (h : Saved r sol status values w w')
    (h' : Saved { r with paths := paths } sol status values v v') :
    w' = w ∧ v' = v ∨ ∃ q t, w' = w.put q t ∧ v' = v.put q t := by
  obtain ⟨hslash, hne⟩ := proper_solution hsol
  unfold Saved at h h'
  split at h
  · rename_i hsave
    rw [if_pos hsave] at h'
    rcases write_congr hlocate hslash hne (SolutionText.write values) with
      ⟨q, hw, hv⟩ | ⟨e, hw, -⟩
    · rw [hw] at h
      rw [hv] at h'
      cases h
      cases h'
      exact Or.inr ⟨q, _, rfl, rfl⟩
    · rw [hw] at h
      cases h
  · rename_i hsave
    rw [if_neg hsave] at h'
    exact Or.inl ⟨h, h'⟩

/-- What follows a search depends on its outcome and on where the solution goes. -/
theorem Ensues.same (hlocate : v.locate sol.text = w.locate sol.text)
    (hsol : p.solution = .ok sol) (h : Ensues r p w f sol out values result w')
    (h' : Ensues { r with paths := paths } p v f sol out values result' v')
    (hrecord : reported p result = some record) (hrecord' : reported p result' = some record') :
    record'.untimed = record.untimed ∧
      (w' = w ∧ v' = v ∨ ∃ q t, w' = w.put q t ∧ v' = v.put q t) := by
  obtain ⟨hslash, hne⟩ := proper_solution hsol
  have hwrite := write_congr hlocate hslash hne (SolutionText.write values)
  cases h with
  | unreported _ he =>
    exact absurd hrecord (not_reported_of_unreported he)
  | unwritten hsave hstatus he =>
    rcases hwrite with ⟨q, hw, -⟩ | ⟨e', hw, hv⟩
    · rw [hw] at he
      cases he
    rw [hw] at he
    cases he
    cases h' with
    | unreported _ he =>
      exact absurd hrecord' (not_reported_of_unreported he)
    | unwritten _ _ he' =>
      rw [hv] at he'
      cases he'
      rw [hrecord'] at hrecord
      cases hrecord
      exact ⟨rfl, Or.inl ⟨rfl, rfl⟩⟩
    | searched hsaved =>
      rw [Saved, if_pos ⟨hsave, hstatus⟩, hv] at hsaved
      cases hsaved
  | searched hsaved seconds =>
    cases h' with
    | unreported _ he =>
      exact absurd hrecord' (not_reported_of_unreported he)
    | unwritten hsave hstatus he' =>
      rcases hwrite with ⟨q, -, hv⟩ | ⟨e', hw, -⟩
      · rw [hv] at he'
        cases he'
      · rw [Saved, if_pos ⟨hsave, hstatus⟩, hw] at hsaved
        cases hsaved
    | searched hsaved' seconds' =>
      exact ⟨untimed_eq_of_conclude hrecord hrecord', saved_congr hlocate hsol hsaved hsaved'⟩

end Records

section Handled

variable {p : Path} {w w' v v' : World} {record record' : ProblemRecord}

theorem Ensues.outcome_of_indeterminate {sol : Path} {f : Factorisation} {out : Outcome}
    {values : Option (Table Int Bool)} {result : Except Fault ProblemRecord}
    (h : Ensues r p w f sol out values result w') (hrecord : reported p result = some record)
    (hstatus : out.verdict.status = .indeterminate) : record.outcome = .ok (.indeterminate, none) := by
  cases h with
  | unwritten _ hdecided => exact absurd hstatus hdecided
  | unreported _ he =>
    exact absurd hrecord (not_reported_of_unreported he)
  | searched =>
    rw [hstatus, conclude, if_neg (by decide)] at hrecord
    cases hrecord
    rfl

/-- Where a solution is to be searched for, a search of the host makes the record. -/
theorem Handled.exists_sought {sol : Path} {f : Factorisation} (h : Handled σ r p w record w')
    (hprepared : w.prepared p r.useCache = .ok (f, sol, false)) :
    ∃ out values result, Sought σ r f.root out ∧ modelOf f out.verdict = .ok values ∧
      Ensues r p w f sol out values result w' ∧ reported p result = some record := by
  obtain ⟨result, hattempt, hrecord⟩ := h
  cases hattempt with
  | unsearched _ hother => exact absurd hprepared (hother f sol)
  | refused => cases hrecord
  | sought h hout hvalues hend =>
    rw [hprepared] at h
    cases h
    exact ⟨_, _, result, hout, hvalues, hend, hrecord⟩

/-- A problem that is processed again makes the same record and the same change to the files,
whatever has been put at foreign places, unless time has made a difference. -/
theorem Handled.same (hp : p.Normal) (hputs : Puts (w.Foreign p) w v)
    (h : Handled σ r p v record v') (h' : Handled σ { r with paths := paths } p w record' w') :
    record'.untimed = record.untimed ∧
        (w' = w ∧ v' = v ∨ ∃ q t, w' = w.put q t ∧ v' = v.put q t) ∨
      Timed σ r ∧ (record.outcome = .ok (.indeterminate, none) ∨
        record'.outcome = .ok (.indeterminate, none)) := by
  have hprepared : v.prepared p r.useCache = w.prepared p r.useCache := prepared_of_puts hputs hp
  cases hcases : w.prepared p r.useCache with
  | error e =>
    rw [hcases] at hprepared
    obtain ⟨result, hattempt, hrecord⟩ := h
    obtain ⟨result', hattempt', hrecord'⟩ := h'
    obtain ⟨rfl, rfl⟩ := hattempt.processed.eq_of_unprepared hprepared
    obtain ⟨rfl, rfl⟩ := hattempt'.processed.eq_of_unprepared hcases
    rw [hrecord'] at hrecord
    cases hrecord
    exact Or.inl ⟨rfl, Or.inl ⟨rfl, rfl⟩⟩
  | ok answer =>
    obtain ⟨f, sol, cached⟩ := answer
    rw [hcases] at hprepared
    have hlocate := locate_solution_of_puts hputs hp hcases
    cases cached with
    | true =>
      obtain ⟨result, hattempt, hrecord⟩ := h
      obtain ⟨result', hattempt', hrecord'⟩ := h'
      obtain ⟨rfl, rfl⟩ := hattempt.processed.eq_of_cached hprepared
      obtain ⟨rfl, rfl⟩ := hattempt'.processed.eq_of_cached hcases
      rw [recorded_congr (read_congr hlocate)] at hrecord
      rw [hrecord'] at hrecord
      cases hrecord
      exact Or.inl ⟨rfl, Or.inl ⟨rfl, rfl⟩⟩
    | false =>
      obtain ⟨out, values, result, hout, hvalues, hend, hrecord⟩ := h.exists_sought hprepared
      obtain ⟨out', values', result', hout', hvalues', hend', hrecord'⟩ := h'.exists_sought hcases
      rcases hout.eq_or_timed hout' with rfl | ⟨htimed, hstatus⟩
      · rw [hvalues] at hvalues'
        cases hvalues'
        have hsol := (problem_of_prepared hcases).2
        obtain ⟨huntimed, hchange⟩ := hend.same hlocate.symm hsol hend' hrecord hrecord'
        exact Or.inl ⟨huntimed, hchange.imp And.symm fun ⟨q, t, hv, hw⟩ => ⟨q, t, hw, hv⟩⟩
      · exact Or.inr ⟨htimed, hstatus.imp (hend.outcome_of_indeterminate hrecord)
          (hend'.outcome_of_indeterminate hrecord')⟩

end Handled

end Batch

end FactorSearch
