import FactorSearch.Proofs.Repetition

/-!
The problems of a batch do not disturb each other. Each of them writes its own solution
only, so if no two of them have their solutions in one place, and none lies where another
has its solution, then each is processed as if it were alone, in whatever order and with
whatever result for the others. Nothing else is written but the summary.
-/

namespace FactorSearch

open Text FileHost World

namespace World

/-- Neither problem has its solution where the other one lies or has its own. -/
structure Separate (w : World) (p p' : Path) : Prop where
  left : ∀ q, w.SolutionAt p q → w.Foreign p' q
  right : ∀ q, w.SolutionAt p' q → w.Foreign p q

theorem normal_of_mem_expand {w : World} {path : String} {p : Path} (h : p ∈ w.expand path) :
    p.Normal := by
  unfold expand at h
  split at h
  · split at h
    · obtain ⟨s, -, rfl⟩ := List.mem_map.1 h
      exact Path.normal_ofText s
    · cases h
  · rw [List.mem_singleton.1 h]
    exact Path.normal_ofText path

end World

namespace Batch

variable {r : BatchRequest} {p : Path} {ps : List Path} {w w' v v' : World}
  {record : ProblemRecord} {records : List ProblemRecord} {S : Place → Prop} {q : Place}

/-- A problem writes its solution and nothing else. -/
theorem Settled.puts (hp : p.Normal) (hputs : Puts (w.Foreign p) w v)
    (h : Settled r p v record v') : Puts (w.SolutionAt p) v v' := by
  rcases h.left with rfl | ⟨f, sol, q, text, -, hproblem, hsol, hq, rfl, -⟩
  · exact .nothing
  · obtain ⟨P, hP⟩ := exists_leads_of_problem hproblem
    have hP := (leads_congr (locate_problem_of_puts hputs) P).1 hP
    have hlocate := locate_solution_of_leads hputs hp hP hsol
    exact .one hq.vacant ⟨sol, hsol, (leads_congr hlocate q).1 hq.leads⟩ text

/-- The summary changes the place only to which its path led before the solutions were written. -/
theorem Summarised.entry?_of_puts (hputs : Puts S w v)
    (hsummary : ∀ path, r.summary = some path → ∀ q, w.EndsAt path q → ¬ S q)
    (h : Summarised r records v v') (hq : ∀ path, r.summary = some path → ¬ w.Leads path q) :
    entry? v' q = entry? v q := by
  rcases h.eq_or_put with rfl | ⟨path, q', text, hpath, hq', rfl⟩
  · rfl
  · have hlocate := hputs.locate_eq (hsummary path hpath)
    have hne : q' ≠ q := by
      rintro rfl
      exact hq path hpath ((leads_congr hlocate q').1 hq'.leads)
    exact entry?_put_of_ne hq'.vacant.below_root _ hne

variable {σ : Type} [FileHost σ]

/-- Among separate problems each sees files only that were there or that lie at foreign places,
and what it has written stays. -/
theorem Handles.isolated (h : Handles σ r v ps records v') (hnormal : ∀ p ∈ ps, p.Normal)
    (hseparate : ps.Pairwise w.Separate) (hputs : ∀ p ∈ ps, Puts (w.Foreign p) w v) :
    Puts (fun q => ∃ p ∈ ps, w.SolutionAt p q) v v' ∧
      List.Forall₂ (fun p record => ∃ u u', Puts (w.Foreign p) w u ∧ Handled σ r p u record u' ∧
        Puts (w.Foreign p) u' v') ps records := by
  induction h with
  | done => exact ⟨.nothing, .nil⟩
  | @next v u v' p rest record records h hrest ih =>
    rw [List.forall_mem_cons] at hnormal hputs
    obtain ⟨hfirst, hseparate⟩ := List.pairwise_cons.1 hseparate
    have hstep := h.settled.puts hnormal.1 hputs.1
    obtain ⟨hlater, hall⟩ := ih hnormal.2 hseparate fun p' hp' =>
      (hputs.2 p' hp').trans (hstep.mono (hfirst p' hp').left)
    constructor
    · refine .trans (hstep.mono fun q hq => ⟨p, List.mem_cons_self, hq⟩) (hlater.mono ?_)
      rintro q ⟨p', hp', hq⟩
      exact ⟨p', List.mem_cons_of_mem _ hp', hq⟩
    · refine .cons ⟨v, u, hputs.1, h, hlater.mono ?_⟩ hall
      rintro q ⟨p', hp', hq⟩
      exact (hfirst p' hp').right q hq

theorem Handles.of_singleton (h : Handles σ r w [p] records w') :
    ∃ record, records = [record] ∧ Handled σ r p w record w' := by
  cases h with
  | next h hrest =>
    cases hrest
    exact ⟨_, rfl, h⟩

/-- Where the problem is the only one of a batch that begins with the files `w`, it makes the
record but for the time it took, and its solution holds what it holds in `w'`. Only for want of
time may one of the two searches have been given up. -/
def MadeAlone (σ : Type) [FileHost σ] (level : String) (r : BatchRequest) (w w' : World) (p : Path)
    (record : ProblemRecord) : Prop :=
  ∀ (paths : List String) (t t' : σ) (records' : List ProblemRecord) (good : Bool),
    files t = w → paths.flatMap w.expand = [p] →
    Completes level { r with paths := paths } t records' good t' →
    ∃ record', records' = [record'] ∧
      (record'.untimed = record.untimed ∧
          (∀ q, w.SolutionAt p q → entry? (files t') q = entry? w' q) ∨
        Timed σ r ∧ (record.outcome = .ok (.indeterminate, none) ∨
          record'.outcome = .ok (.indeterminate, none)))

/-- One of the problems: what has been put before and after it is foreign to it. -/
theorem Handled.madeAlone {level : String} {u u' : World} (hp : p.Normal)
    (hbefore : Puts (w.Foreign p) w u) (h : Handled σ r p u record u')
    (hafter : ∀ q, w.SolutionAt p q → entry? w' q = entry? u' q)
    (hsummary : ∀ path, r.summary = some path → ∀ q, w.EndsAt path q → ¬ w.SolutionAt p q) :
    MadeAlone σ level r w w' p record := by
  rintro paths t t' records' good rfl hpaths halone
  obtain ⟨v, -, hhandles, hreported⟩ := halone.exists_handles
  rw [show ({ r with paths := paths } : BatchRequest).paths = paths from rfl, hpaths] at hhandles
  obtain ⟨record', rfl, hhandled⟩ := hhandles.of_singleton
  refine ⟨record', rfl, ?_⟩
  refine (h.same hp hbefore hhandled).imp_left ?_
  rintro ⟨huntimed, hchange⟩
  refine ⟨huntimed, fun q hq => ?_⟩
  have hputs := hhandled.settled.puts hp .nothing
  have hkept : entry? (files t') q = entry? v q := by
    cases hreported with
    | done h =>
      refine h.entry?_of_puts hputs hsummary fun path hpath hleads => ?_
      exact hsummary path hpath q hleads.endsAt hq
  have hentry := hbefore.entry?_eq fun hforeign => hforeign.solution hq
  rw [hkept, hafter q hq]
  rcases hchange with ⟨rfl, rfl⟩ | ⟨q', text, rfl, rfl⟩
  · exact hentry.symm
  · exact entry?_put_congr hentry.symm q' text

/-- Each problem of a batch makes the record that it makes alone and leaves the solution that it
leaves alone, and all places are kept but those of solutions and of the summary. -/
theorem problems_isolated {level : String} {s s' : σ} {good : Bool}
    (hseparate : (r.paths.flatMap (files s).expand).Pairwise (files s).Separate)
    (hsummary : ∀ path, r.summary = some path → ∀ q, (files s).EndsAt path q →
      ∀ p ∈ r.paths.flatMap (files s).expand, ¬ (files s).SolutionAt p q)
    (h : Completes level r s records good s') :
    List.Forall₂ (MadeAlone σ level r (files s) (files s')) (r.paths.flatMap (files s).expand)
        records ∧
      ∀ q, (∀ p ∈ r.paths.flatMap (files s).expand, ¬ (files s).SolutionAt p q) →
        (∀ path, r.summary = some path → ¬ (files s).Leads path q) →
        entry? (files s') q = entry? (files s) q := by
  obtain ⟨w, -, hhandles, hreported⟩ := h.exists_handles
  have hnormal : ∀ p ∈ r.paths.flatMap (files s).expand, p.Normal := by
    intro p hp
    obtain ⟨path, -, hmem⟩ := List.mem_flatMap.1 hp
    exact normal_of_mem_expand hmem
  obtain ⟨hputs, hall⟩ := hhandles.isolated hnormal hseparate fun _ _ => .nothing
  have hkept : ∀ q, (∀ path, r.summary = some path → ¬ (files s).Leads path q) →
      entry? (files s') q = entry? w q := by
    intro q hq
    cases hreported with
    | done hdone =>
      refine hdone.entry?_of_puts hputs ?_ hq
      rintro path hpath q' hend ⟨p, hp, hsolution⟩
      exact hsummary path hpath q' hend p hp hsolution
  constructor
  · have hmem : ∀ p ∈ r.paths.flatMap (files s).expand, p ∈ r.paths.flatMap (files s).expand :=
      fun _ hp => hp
    refine ((List.forall₂_and_left _ _).2 ⟨hmem, hall⟩).imp ?_
    rintro p record ⟨hp, u, u', hbefore, hhandled, hafter⟩
    have hapart : ∀ path, r.summary = some path → ∀ q, (files s).EndsAt path q →
        ¬ (files s).SolutionAt p q := fun path hpath q hend => hsummary path hpath q hend p hp
    refine hhandled.madeAlone (hnormal p hp) hbefore (fun q hq => ?_) hapart
    rw [hkept q fun path hpath hleads => hapart path hpath q hleads.endsAt hq]
    exact hafter.entry?_eq fun hforeign => hforeign.solution hq
  · intro q hq hpath
    rw [hkept q hpath]
    exact hputs.entry?_eq fun ⟨p, hp, hsolution⟩ => hq p hp hsolution

section Pair

end Pair

end Batch

end FactorSearch
