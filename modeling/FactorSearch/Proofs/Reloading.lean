import FactorSearch.Proofs.BatchFaults

/-!
A verdict that has been written beside a problem is read as itself. The values that are read
are those that were found, so the factors are the same, or the same bit has none. A summary
that is written elsewhere changes nothing of this.
-/

namespace FactorSearch

open Text FileHost

namespace World

/-- What is read at some places is kept. -/
structure Spares (places : List Place) (w w' : World) : Prop where
  grows : Grows w w'
  read : ∀ path p, w.Leads path p → p ∈ places → w'.read path = w.read path
  present : ∀ path p, w.Leads path p → p ∈ places → w'.present path = w.present path

variable {w w' : World} {p sol : Path} {q : Place} {places : List Place}

theorem Spares.refl (places : List Place) (w : World) : Spares places w w :=
  ⟨.refl w, fun _ _ _ _ => rfl, fun _ _ _ _ => rfl⟩

theorem spares_put (hq : w.Vacant q) (hplaces : q ∉ places) (t : String) :
    Spares places w (w.put q t) where
  grows := grows_put hq t
  read _ _ hp hmem := read_put_of_ne hq hp (fun h => hplaces (h ▸ hmem)) t
  present _ _ hp hmem := present_put_of_ne hq hp (fun h => hplaces (h ▸ hmem)) t

theorem prepared_congr {useCache : Bool} (hread : w'.read p.text = w.read p.text)
    (hpresent : ∀ sol, p.solution = .ok sol → w'.present sol.text = w.present sol.text) :
    w'.prepared p useCache = w.prepared p useCache := by
  have hproblem : w'.problem p = w.problem p := by
    unfold problem
    rw [hread]
  unfold prepared
  rw [hproblem]
  cases w.problem p with
  | error e => rfl
  | ok f =>
    cases hsol : p.solution with
    | error e => rfl
    | ok sol => simp only [hpresent sol hsol]

/-- What is wrong before solutions are looked for is wrong all the same with them. -/
theorem prepared_of_error {useCache : Bool} {e : Fault} (h : w.prepared p useCache = .error e) :
    w.prepared p true = .error e := by
  cases useCache with
  | true => exact h
  | false =>
    unfold prepared at h ⊢
    cases hproblem : w.problem p with
    | error e' =>
      rw [hproblem] at h
      exact h
    | ok f =>
      cases hsol : p.solution with
      | error e' =>
        rw [hproblem, hsol] at h
        exact h
      | ok sol =>
        rw [hproblem, hsol] at h
        cases h

theorem recorded_congr (hread : w'.read sol.text = w.read sol.text) :
    w'.recorded sol = w.recorded sol := by
  unfold recorded
  rw [hread]

end World

namespace BitLayout

theorem number_congr {t u : Table Int Bool} (h : ∀ x, t.get? x = u.get? x) (vars : List Int) :
    number t vars = number u vars := by
  unfold number
  generalize (0 : ℕ) = high
  induction vars generalizing high with
  | nil => rfl
  | cons v rest ih =>
    unfold numberFrom
    rw [h v]
    cases u.get? v with
    | none => rfl
    | some b => exact ih _

end BitLayout

namespace Factorisation

/-- The factors depend on the values only. -/
theorem factors_congr (f : Factorisation) {t u : Table Int Bool} (h : ∀ x, t.get? x = u.get? x) :
    f.factors (some t) = f.factors (some u) := by
  have hsome : ∀ v : Table Int Bool, (some v <|> f.solution) = some v := fun _ => rfl
  unfold factors
  simp only [hsome, BitLayout.number_congr h]

end Factorisation

namespace ProblemRecord

theorem isFailed_congr {record record' : ProblemRecord} (h : record.outcome = record'.outcome) :
    record.isFailed = record'.isFailed := by
  unfold outcome at h
  unfold isFailed
  cases hresult : record.result <;> cases hresult' : record'.result <;> rw [hresult, hresult'] at h <;>
    first | rfl | cases h

end ProblemRecord

namespace Batch

open World

/-- What the record of a problem will say, unless a fault that is not of one problem comes first. -/
def said : Except Fault ProblemRecord → Option (Except String (Status × Option Factors))
  | .ok record => some record.outcome
  | .error e => if e.isLocal then some (.error e.message) else none

variable {r : BatchRequest} {p sol : Path} {w w' : World} {f : Factorisation}
  {outcome : Except String (Status × Option Factors)}

theorem Settled.exists_processed {record : ProblemRecord} (h : Settled r p w record w') :
    ∃ result, Processed r p w result w' ∧ said result = some record.outcome := by
  cases h with
  | concluded h => exact ⟨_, h, rfl⟩
  | failed h he => exact ⟨_, h, if_pos he⟩

theorem said_conclude_none {source : RecordSource} {status : Status}
    {values : Option (Table Int Bool)} (h : status ≠ .satisfiable) :
    said (conclude f p source status values) = some (.ok (status, none)) := by
  rw [conclude, if_neg h]
  rfl

/-- What is said depends neither on where the values come from nor on how they are kept. -/
theorem said_conclude_congr {source source' : RecordSource} {t u : Table Int Bool}
    (h : ∀ x, t.get? x = u.get? x) :
    said (conclude f p source .satisfiable (some t)) =
      said (conclude f p source' .satisfiable (some u)) := by
  rw [conclude, conclude, if_pos rfl, if_pos rfl, f.factors_congr h]
  cases f.factors (some u) with
  | error e => rfl
  | ok factors =>
    simp only
    cases factorLine factors <;> rfl

/-- Processing the problem with recorded solutions says this, and changes nothing. -/
inductive Reloads (w : World) (p : Path) (outcome : Except String (Status × Option Factors)) : Prop
  | unprepared {e : Fault} (h : w.prepared p true = .error e)
      (he : said (.error e) = some outcome)
  | recorded {f : Factorisation} {sol : Path} {status : Status} {values : Option (Table Int Bool)}
      (h : w.prepared p true = .ok (f, sol, true)) (hvalues : w.recorded sol = .ok (status, values))
      (hsaid : said (conclude f p .cache status values) = some outcome)

theorem Reloads.said_eq {result : Except Fault ProblemRecord} (h : Reloads w p outcome)
    (hcache : r.useCache = true) (hprocessed : Processed r p w result w') :
    said result = some outcome ∧ w' = w := by
  cases h with
  | unprepared h he =>
    obtain ⟨rfl, hw⟩ := hprocessed.eq_of_unprepared (by rw [hcache]; exact h)
    exact ⟨he, hw⟩
  | recorded h hvalues hsaid =>
    obtain ⟨hresult, hw⟩ := hprocessed.eq_of_cached (by rw [hcache]; exact h)
    rw [hvalues] at hresult
    subst hresult
    exact ⟨hsaid, hw⟩

theorem Reloads.spared {P Q : Place} (h : Reloads w p outcome) (hsol : p.solution = .ok sol)
    (hP : w.Leads p.text P) (hQ : w.Leads sol.text Q) (hspares : Spares [P, Q] w w') :
    Reloads w' p outcome := by
  have hprepared : w'.prepared p true = w.prepared p true := by
    refine prepared_congr (hspares.read _ _ hP (by simp)) fun sol' hsol' => ?_
    rw [hsol] at hsol'
    cases hsol'
    exact hspares.present _ _ hQ (by simp)
  cases h with
  | unprepared h he => exact .unprepared (hprepared.trans h) he
  | @recorded f sol' status values h hvalues hsaid =>
    obtain rfl := solution_eq_of_prepared h hsol
    have hrecorded := recorded_congr (hspares.read _ _ hQ (by simp))
    exact .recorded (hprepared.trans h) (hrecorded.trans hvalues) hsaid

/-- A verdict that has been written is recorded. -/
theorem Solved.reloads {P Q : Place} {out : Search.Outcome} {values : Option (Table Int Bool)}
    {source : RecordSource} (h : Solved r p w f sol out values) (hP : w.Leads p.text P)
    (hQ : w.Writable sol.text Q) (hPQ : P ≠ Q) (hdecided : out.verdict.status ≠ .indeterminate)
    (hsaid : said (conclude f p source out.verdict.status values) = some outcome) :
    Reloads (w.put Q (SolutionText.write values)) p outcome := by
  obtain ⟨hproblem, hsol⟩ := problem_of_prepared h.prepared
  have hread := read_put_self hQ.vacant hQ.leads (SolutionText.write values)
  have hprepared : (w.put Q (SolutionText.write values)).prepared p true = .ok (f, sol, true) := by
    have hproblem' : (w.put Q (SolutionText.write values)).problem p = .ok f := by
      rw [← hproblem]
      unfold World.problem
      rw [read_put_of_ne hQ.vacant hP hPQ.symm]
    unfold World.prepared
    rw [hproblem', hsol]
    simp only [present_put_self hQ.vacant hQ.leads, if_true]
  have hsome := isSome_of_modelOf h.model
  cases values with
  | none =>
    have hrecorded : (w.put Q (SolutionText.write none)).recorded sol = .ok (.unsatisfiable, none) := by
      rw [recorded_of_read hread]
      exact verdictOf_ok (by rw [SolutionText.unifyBreaks_write]; exact SolutionText.parse_write_none _)
    refine .recorded hprepared hrecorded ?_
    have hstatus : out.verdict.status = .unsatisfiable := by
      cases hverdict : out.verdict.status with
      | satisfiable => rw [hverdict] at hsome; cases hsome
      | unsatisfiable => rfl
      | indeterminate => exact absurd hverdict hdecided
    rw [hstatus, said_conclude_none (by decide)] at hsaid
    rw [said_conclude_none (by decide)]
    exact hsaid
  | some t =>
    have hstatus : out.verdict.status = .satisfiable := of_decide_eq_true hsome.symm
    have hrecordable := (verify_of_modelOf (readable_of_problem hproblem) h.found h.model).2
    obtain ⟨u, hu, hget⟩ := SolutionText.exists_parse_write hrecordable (some sol.text)
    have hrecorded : (w.put Q (SolutionText.write (some t))).recorded sol =
        .ok (.satisfiable, some u) := by
      rw [recorded_of_read hread]
      exact verdictOf_ok (by rw [SolutionText.unifyBreaks_write]; exact hu)
    refine .recorded hprepared hrecorded ?_
    rw [hstatus] at hsaid
    rw [← hsaid]
    exact said_conclude_congr hget

/-- What is said of a problem when it has been searched is what it reloads as. -/
theorem Processed.reloads {P Q : Place} {result : Except Fault ProblemRecord}
    (h : Processed r p w result w') (hsave : r.save = true) (hsol : p.solution = .ok sol)
    (hfresh : r.useCache = false ∨ w.present sol.text = .ok false) (hP : w.Leads p.text P)
    (hQ : w.Writable sol.text Q) (hPQ : P ≠ Q) (hsaid : said result = some outcome)
    (hdecided : ∀ factors, outcome ≠ .ok (.indeterminate, factors)) :
    Reloads w' p outcome := by
  have hsearched : ∀ {f sol'}, w.prepared p r.useCache ≠ .ok (f, sol', true) := by
    intro f sol' hprepared
    have huse := useCache_of_prepared hprepared
    rcases hfresh with hfresh | hfresh
    · rw [huse] at hfresh
      cases hfresh
    · obtain rfl := solution_eq_of_prepared hprepared hsol
      rw [huse] at hprepared
      have hpresent := present_of_prepared hprepared
      rw [hfresh] at hpresent
      cases hpresent
  cases h with
  | unprepared h => exact .unprepared (prepared_of_error h) hsaid
  | unrecorded h => exact absurd h hsearched
  | recorded h => exact absurd h hsearched
  | refused => cases hsaid
  | unwritten hsolved _ _ he =>
    obtain rfl := solution_eq_of_prepared hsolved.prepared hsol
    rw [write_of_writable hQ] at he
    cases he
  | unreported _ _ he =>
    cases he <;> cases hsaid
  | @searched f sol' out values _ hsolved hsaved seconds =>
    obtain rfl := solution_eq_of_prepared hsolved.prepared hsol
    have hstatus : out.verdict.status ≠ .indeterminate := by
      intro hstatus
      rw [hstatus, said_conclude_none (by decide)] at hsaid
      exact hdecided none (Option.some.inj hsaid).symm
    rw [Saved, if_pos ⟨hsave, hstatus⟩, write_of_writable hQ] at hsaved
    cases hsaved
    exact hsolved.reloads hP hQ hPQ hstatus hsaid

/-- The batch of one problem that reloads. -/
theorem Reloads.batched {result : Except Fault (List ProblemRecord)} (h : Reloads w p outcome)
    (hcache : r.useCache = true) (hbatched : Batched r w [p] result w') :
    ∃ record, result = .ok [record] ∧ record.problem = p.text ∧ record.outcome = outcome ∧ w' = w := by
  rcases hbatched.of_singleton with ⟨e, hprocessed, he, -⟩ | ⟨record, hsettled, rfl⟩
  · obtain ⟨hsaid, -⟩ := h.said_eq hcache hprocessed
    rw [said, he] at hsaid
    cases hsaid
  · obtain ⟨result, hprocessed, hrecord⟩ := hsettled.exists_processed
    obtain ⟨hsaid, hw⟩ := h.said_eq hcache hprocessed
    exact ⟨record, rfl, hsettled.problem_eq, Option.some.inj (hrecord.symm.trans hsaid), hw⟩

end Batch

namespace BatchRequest

/-- The summary, if there is one, can be written, and to none of these places. -/
def Apart (r : BatchRequest) (w : World) (places : List Place) : Prop :=
  ∀ path, r.summary = some path → ∃ q, w.Writable path q ∧ q ∉ places

theorem apart_quiet (paths : List String) (w : World) (places : List Place) :
    (quiet paths).Apart w places := fun _ h => nomatch h

theorem Apart.grows {r : BatchRequest} {w w' : World} {places : List Place} (h : r.Apart w places)
    (hgrows : World.Grows w w') : r.Apart w' places := by
  intro path hpath
  obtain ⟨q, hq, hplaces⟩ := h path hpath
  exact ⟨q, hgrows.writable path q hq, hplaces⟩

end BatchRequest

namespace Batch

open World

variable {r : BatchRequest} {p sol : Path} {w w' : World} {places : List Place}

theorem Summarised.spares {records : List ProblemRecord} (h : Summarised r records w w')
    (hapart : r.Apart w places) : Spares places w w' := by
  rcases h.eq_or_put with rfl | ⟨path, q, text, hpath, hq, rfl⟩
  · exact Spares.refl places _
  · obtain ⟨q', hq', hplaces⟩ := hapart path hpath
    obtain rfl := hq.leads.unique hq'.leads
    exact spares_put hq.vacant hplaces _

theorem Reported.spares {records : List ProblemRecord} {good : Bool}
    (h : Reported r records w (.ok good) w') (hapart : r.Apart w places) : Spares places w w' := by
  cases h with
  | done h => exact h.spares hapart

section Host

variable {σ : Type} [FileHost σ]

/-- What one run says of a problem, unless it gave up, the next run says again when it reads what
has been written, which stays as it is. -/
theorem verdict_reloads {level level' arg : String} {r r' : BatchRequest} {sol : Path}
    {P Q : Place} {threshold : ℕ} {v : Int} {s s' t : σ} {record : ProblemRecord} {good : Bool}
    (hpaths : r.paths = [arg]) (hfile : (files s).isDirectory arg = false)
    (hP : (files s).Leads (Path.ofText arg).text P)
    (hsuffix : ¬ ".sol".toList <:+ (Path.ofText arg).text.toList)
    (hsol : (Path.ofText arg).solution = .ok sol) (hQ : (files s).Writable sol.text Q)
    (hsave : r.save = true) (hfresh : r.useCache = false ∨ (files s).present sol.text = .ok false)
    (hapart : r.Apart (files s) [P, Q]) (hrun : Completes level r s [record] good s')
    (hdecided : ∀ factors, record.outcome ≠ .ok (.indeterminate, factors))
    (hfiles : files t = files s') (hpaths' : r'.paths = [arg]) (hcache : r'.useCache = true)
    (hapart' : r'.Apart (files s) [Q]) (hlevel : LogLevel.threshold level' = .ok threshold)
    (hverbosity : r'.verbosity = .given v) :
    ∃ record' t', Completes level' r' t [record'] good t' ∧ record'.problem = record.problem ∧
      record'.outcome = record.outcome ∧ (files t').read sol.text = (files t).read sol.text := by
  have hPQ : P ≠ Q := solution_place_ne (Path.normal_ofText arg) hsol hsuffix hP hQ.leads
  obtain ⟨w, hgathered, hreported⟩ := hrun.exists_reported
  -- The first run: one problem, then the summary.
  obtain ⟨hreloads, hgrows, hproblem⟩ : Reloads w (Path.ofText arg) record.outcome ∧
      Grows (files s) w ∧ record.problem = (Path.ofText arg).text := by
    have hgrows := hgathered.kept.grows
    rcases hgathered.of_file hpaths hfile with ⟨u, -, hresult⟩ | hbatched
    · cases hresult
    rcases hbatched.of_singleton with ⟨e, -, -, hresult⟩ | ⟨record', hsettled, hresult⟩
    · cases hresult
    cases hresult
    obtain ⟨result, hprocessed, hsaid⟩ := hsettled.exists_processed
    exact ⟨hprocessed.reloads hsave hsol hfresh hP hQ hPQ hsaid hdecided, hgrows, hsettled.problem_eq⟩
  have hspares : Spares [P, Q] w (files t) := by
    rw [hfiles]
    exact hreported.spares (hapart.grows hgrows)
  have hreloads := hreloads.spared hsol (hgrows.leads _ _ hP) (hgrows.leads _ _ hQ.leads) hspares
  -- The second run: what it can end with, whatever its own settings are.
  have hgrows := hgrows.trans hspares.grows
  have hfile' : (files t).isDirectory arg = false := (hgrows.isDirectory arg).trans hfile
  have hmade : ∀ {result w'}, Gathered level' r' (files t) result w' →
      ∃ record', result = .ok [record'] ∧ record'.problem = record.problem ∧
        record'.outcome = record.outcome ∧ w' = files t := by
    intro result w' hgathered
    rcases hgathered.of_file hpaths' hfile' with ⟨u, hunknown, -⟩ | hbatched
    · rw [hlevel] at hunknown
      cases hunknown
    · rw [hproblem]
      exact hreloads.batched hcache hbatched
  rcases completes_or_fault level' r' t with
    ⟨records, good', t', hcompletes⟩ | ⟨e, t', -, hgathered | ⟨records, w', hgathered, hreported⟩⟩
  · obtain ⟨w', hgathered, hreported'⟩ := hcompletes.exists_reported
    obtain ⟨record', hrecords, hproblem', houtcome, rfl⟩ := hmade hgathered
    cases hrecords
    have hgood : good' = good := by
      rw [hreported'.good_eq, hreported.good_eq]
      simp only [List.any_cons, List.any_nil, ProblemRecord.isFailed_congr houtcome]
    subst hgood
    have hkept := hreported'.spares (hapart'.grows hgrows)
    exact ⟨record', t', hcompletes, hproblem', houtcome,
      hkept.read _ _ (hgrows.leads _ _ hQ.leads) (by simp)⟩
  · obtain ⟨record', hresult, -⟩ := hmade hgathered
    cases hresult
  · obtain ⟨record', hresult, -, -, hw⟩ := hmade hgathered
    cases hreported with
    | unwritten hpath he =>
      obtain ⟨q, hq, -⟩ := hapart'.grows hgrows _ hpath
      rw [hw, write_of_writable hq] at he
      cases he
    | bare _ hbare =>
      rw [hverbosity] at hbare
      cases hbare

end Host

section Conjunction

theorem said_error_ne (e : Fault) (x : Status × Option Factors) :
    said (.error e) ≠ some (.ok x) := by
  show (if e.isLocal then _ else _) ≠ _
  split
  · exact fun h => nomatch h
  · exact fun h => nomatch h

theorem status_of_said {source : RecordSource} {status status' : Status} {f : Factorisation}
    {values : Option (Table Int Bool)} {factors : Option Factors}
    (h : said (conclude f p source status values) = some (.ok (status', factors))) :
    status' = status := by
  have hcases := concluded f p source status values
  generalize conclude f p source status values = result at h hcases
  cases hcases with
  | plain => cases h; rfl
  | unread => exact absurd h (said_error_ne _ _)
  | unshown => cases h
  | shown => cases h; rfl

/-- Without limits a verdict is reached. -/
theorem Processed.decided {result : Except Fault ProblemRecord} (h : Processed r p w result w')
    (htime : r.timeLimit = .given none) (hdecisions : r.decisionBudget = .given none)
    (factors : Option Factors) : said result ≠ some (.ok (.indeterminate, factors)) := by
  cases h with
  | recorded _ hvalues =>
    intro hsaid
    have hstatus := (status_of_said hsaid).trans (status_of_recorded hvalues)
    split at hstatus <;> cases hstatus
  | searched hsolved _ _ =>
    intro hsaid
    exact hsolved.found.decided htime hdecisions (status_of_said hsaid).symm
  | _ => exact said_error_ne _ _

theorem legible_alone (problem : String) : (World.alone problem).Legible (Path.ofText "p.cnf") where
  problem := ⟨problem.toList, by rw [text_problem, World.read_alone]⟩
  solution sol e hsol := by
    rw [solution_problem] at hsol
    cases hsol
    rw [text_solution, (World.solution_alone problem).2]
    exact fun h => nomatch h

theorem exists_record_conjunction {result : Except Fault (List ProblemRecord)}
    (h : Gathered "WARNING" (.quiet ["p.cnf"]) (World.alone World.conjunction) result w') :
    ∃ record, result = .ok [record] ∧ ∀ factors, record.outcome ≠ .ok (.indeterminate, factors) := by
  rcases h.of_file rfl (World.isDirectory_beside World.conjunction "").1 with ⟨u, hlevel, -⟩ | hbatched
  · cases hlevel
  rcases hbatched.of_singleton with ⟨e, hprocessed, he, -⟩ | ⟨record, hsettled, hresult⟩
  · exfalso
    rcases hprocessed.isLocal_or_unhandled (Kept.refl _ _) (legible_alone _) solution_problem with
      hlocal | hunhandled
    · rw [he] at hlocal
      cases hlocal
    · revert hunhandled
      refine not_unhandled (BatchRequest.complete_quiet _) ?_ ?_ ?_
      · intro v hv
        cases hv
        decide
      · intro sol text d hsol hread
        rw [solution_problem] at hsol
        cases hsol
        rw [text_solution, (World.solution_alone World.conjunction).2] at hread
        cases hread
      · exact fun f o hf => bits_conjunction ((problem_of_read (World.read_alone _)).1 hf) o
  · obtain ⟨result, hprocessed, hsaid⟩ := hsettled.exists_processed
    refine ⟨record, hresult, fun factors houtcome => ?_⟩
    rw [houtcome] at hsaid
    exact hprocessed.decided rfl rfl factors hsaid

theorem exists_completes_conjunction :
    ∃ record good s', Completes "WARNING" (.quiet ["p.cnf"]) (World.alone World.conjunction) [record]
      good s' ∧ ∀ factors, record.outcome ≠ .ok (.indeterminate, factors) := by
  rcases completes_or_fault "WARNING" (.quiet ["p.cnf"]) (World.alone World.conjunction) with
    ⟨records, good, s', hcompletes⟩ | ⟨e, s', -, hgathered | ⟨records, w, hgathered, hreported⟩⟩
  · obtain ⟨w, hgathered, -⟩ := hcompletes.exists_reported
    obtain ⟨record, hrecords, hdecided⟩ := exists_record_conjunction hgathered
    cases hrecords
    exact ⟨record, good, s', hcompletes, hdecided⟩
  · obtain ⟨record, hresult, -⟩ := exists_record_conjunction hgathered
    cases hresult
  · cases hreported with
    | unwritten hpath => cases hpath
    | bare _ hbare => cases hbare

/-- A problem without a solution beside it is searched, and what was found is read. -/
theorem verdict_reloads_conjunction :
    ∃ record good s' record' t', Completes "WARNING" (.quiet ["p.cnf"])
        (World.alone World.conjunction) [record] good s' ∧
      Completes "WARNING" (.quiet ["p.cnf"]) s' [record'] good t' ∧
        record'.outcome = record.outcome := by
  obtain ⟨record, good, s', hrun, hdecided⟩ := exists_completes_conjunction
  have hP : (World.alone World.conjunction).Leads (Path.ofText "p.cnf").text ["p.cnf"] := by
    rw [text_problem]
    exact World.writable_problem.leads.put World.writable_problem.vacant _
  have hQ : (World.alone World.conjunction).Writable (⟨"", ["p.sol"]⟩ : Path).text ["p.sol"] := by
    rw [text_solution]
    exact World.writable_solution _
  have hfresh : (World.alone World.conjunction).present (⟨"", ["p.sol"]⟩ : Path).text = .ok false := by
    rw [text_solution]
    exact (World.solution_alone _).1
  obtain ⟨record', t', hagain, -, houtcome, -⟩ := verdict_reloads rfl
    (World.isDirectory_beside World.conjunction "").1 hP (by rw [text_problem]; decide)
    solution_problem hQ rfl (Or.inr hfresh) (BatchRequest.apart_quiet _ _ _) hrun hdecided rfl
    (rfl : (BatchRequest.quiet ["p.cnf"]).paths = ["p.cnf"]) rfl (BatchRequest.apart_quiet _ _ _)
    (rfl : LogLevel.threshold "WARNING" = .ok _) rfl
  exact ⟨record, good, s', record', t', hrun, hagain, houtcome⟩

end Conjunction

end Batch

end FactorSearch
