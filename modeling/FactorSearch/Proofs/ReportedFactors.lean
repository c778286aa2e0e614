import FactorSearch.Proofs.BatchRun

/-!
Where reported factors come from. A search reports factors only of an assignment that
satisfies every clause of the problem. A recorded solution is taken as it stands: it fails
if it gives a variable both values or a bit none, but no clause is looked at.
-/

namespace FactorSearch

open Text FileHost

namespace Batch

/-- Where an assignment comes from. What a search has found satisfies the problem; what is
recorded may be any text. -/
inductive Backed (w : World) (f : Factorisation) (sol : Path) (t : Table Int Bool) :
    RecordSource → Prop
  | searched {ctx : Context} {seconds : Option Binary64} (h : f.verify t = true) :
      Backed w f sol t (.search ctx seconds)
  | recorded (h : w.recorded sol = .ok (.satisfiable, some t)) : Backed w f sol t .cache

variable {r : BatchRequest} {p sol : Path} {w w' : World} {f : Factorisation}

/-- Factors that a record reports are those of an assignment, which a search has found to
satisfy the problem or a recorded solution gives. -/
theorem Processed.exists_backed {record : ProblemRecord} {source : RecordSource} {factors : Factors}
    (h : Processed r p w (.ok record) w')
    (hrecord : record.result = .solved source .satisfiable (some factors)) :
    ∃ f sol t, w.problem p = .ok f ∧ p.solution = .ok sol ∧ f.factors (some t) = .ok factors ∧
      Backed w f sol t source := by
  have hshown : ∀ {f source' status values},
      conclude f p source' status values = .ok record →
      status = .satisfiable ∧ source' = source ∧ f.factors values = .ok factors := by
    intro f source' status values hconclude
    have hcases := concluded f p source' status values
    rw [hconclude] at hcases
    cases hcases with
    | plain _ => cases hrecord
    | shown hstatus hfactors _ =>
      cases hrecord
      exact ⟨rfl, rfl, hfactors⟩
  generalize hresult : (.ok record : Except Fault ProblemRecord) = result at h
  cases h with
  | unprepared => cases hresult
  | unrecorded => cases hresult
  | refused => cases hresult
  | unwritten => cases hresult
  | unreported => cases hresult
  | recorded hprepared hvalues =>
    obtain ⟨hproblem, hsol⟩ := World.problem_of_prepared hprepared
    obtain ⟨rfl, rfl, hfactors⟩ := hshown hresult.symm
    obtain ⟨t, rfl⟩ := exists_of_isSome (World.isSome_of_recorded hvalues) rfl
    exact ⟨_, _, t, hproblem, hsol, hfactors, .recorded hvalues⟩
  | searched hsolved hsaved seconds =>
    obtain ⟨hproblem, hsol⟩ := World.problem_of_prepared hsolved.prepared
    obtain ⟨hstatus, rfl, hfactors⟩ := hshown hresult.symm
    obtain ⟨t, rfl⟩ := exists_of_isSome (isSome_of_modelOf hsolved.model) hstatus
    have hverify := (verify_of_modelOf (readable_of_problem hproblem) hsolved.found hsolved.model).1
    exact ⟨_, _, t, hproblem, hsol, hfactors, .searched hverify⟩

/-- Why a recorded solution cannot be used: it gives a variable both values, or a bit of an
operand none. -/
inductive Unusable (w : World) (f : Factorisation) (sol : Path) : Fault → Prop
  | bothWays {v : Int} {source : Option String}
      (h : w.recorded sol = .error (.solution (.bothWays v source))) :
      Unusable w f sol (.solution (.bothWays v source))
  | missingBit {t : Table Int Bool} {b : MissingBit} (h : w.recorded sol = .ok (.satisfiable, some t))
      (hb : f.factors (some t) = .error (.missingBit b)) : Unusable w f sol (.factor (.missingBit b))

theorem Processed.eq_of_unusable {e : Fault} {result : Except Fault ProblemRecord}
    (h : Processed r p w result w') (hp : w.prepared p r.useCache = .ok (f, sol, true))
    (he : Unusable w f sol e) : result = .error e := by
  obtain ⟨hresult, -⟩ := h.eq_of_cached hp
  rw [hresult]
  cases he with
  | bothWays hrecorded =>
    rw [hrecorded]
    rfl
  | missingBit hrecorded hb =>
    rw [hrecorded]
    show conclude f p .cache .satisfiable _ = _
    rw [conclude, if_pos rfl, hb]

/-- A problem that ends in a fault of its own makes a failed record. -/
theorem Batched.eq_of_isLocal {e : Fault} {result : Except Fault (List ProblemRecord)}
    (h : Batched r w [p] result w') (he : e.isLocal = true)
    (hall : ∀ result w', Processed r p w result w' → result = .error e) :
    result = .ok [⟨p.text, .failed e.message⟩] := by
  rcases h.of_singleton with ⟨e', hprocessed, he', -⟩ | ⟨record, hsettled, rfl⟩
  · cases hall _ _ hprocessed
    rw [he] at he'
    cases he'
  · cases hsettled with
    | concluded hprocessed => cases hall _ _ hprocessed
    | failed hprocessed =>
      cases hall _ _ hprocessed
      rfl

section Host

variable {σ : Type} [FileHost σ]

/-- Factors are reported of an assignment that satisfies the problem if a search was made, and
of what is recorded otherwise; a recorded solution that cannot be used makes a failed record. -/
theorem reported_factors_backed (threshold : ℕ) (r : BatchRequest) (p : Path) (s : σ) :
    (∀ record s' source factors,
      (processProblem (m := StateM σ) threshold r p).run.run s = (.ok record, s') →
      record.result = .solved source .satisfiable (some factors) →
      ∃ f sol t, (files s).problem p = .ok f ∧ p.solution = .ok sol ∧
        f.factors (some t) = .ok factors ∧ Backed (files s) f sol t source) ∧
    ∀ f sol e, (files s).prepared p r.useCache = .ok (f, sol, true) → Unusable (files s) f sol e →
      ∃ s', (processAll (m := StateM σ) threshold r [p]).run.run s =
        (.ok [⟨p.text, .failed e.message⟩], s') := by
  constructor
  · intro record s' source factors hrun hrecord
    have hprocessed := tries_processProblem threshold r p (files s) s rfl
    rw [hrun] at hprocessed
    exact hprocessed.exists_backed hrecord
  · intro f sol e hprepared he
    have hlocal : e.isLocal = true := by cases he <;> rfl
    have hbatched := tries_processAll threshold r [p] (files s) s rfl
    have hresult := hbatched.eq_of_isLocal hlocal fun result w' h => h.eq_of_unusable hprepared he
    exact ⟨_, Prod.ext hresult rfl⟩

end Host

section Contradicted

/-- A problem, and beside it the solution of another one. -/
def contradicted : World := World.beside World.conjunction "SAT\n1 -2 3 0\n"

/-- A problem, and beside it a solution that gives a variable both values. -/
def ambiguous : World := World.beside World.conjunction "SAT\n1 -1 0\n"

theorem exists_contradicted :
    ∃ f t, (Factorisation.ofText (some "p.cnf") (unifyBreaks World.conjunction.toList)).2 = .ok f ∧
      SolutionText.parse (some (⟨"", ["p.sol"]⟩ : Path).text) (unifyBreaks "SAT\n1 -2 3 0\n".toList) =
        .ok (some t) ∧
      f.factors (some t) = .ok ⟨1, 0, 1⟩ ∧ f.verify t = false := by
  have hchecked : ((Factorisation.ofText (some "p.cnf")
      (unifyBreaks World.conjunction.toList)).2.toOption.any fun f =>
        (SolutionText.parse (some "p.sol") (unifyBreaks "SAT\n1 -2 3 0\n".toList)).toOption.any
          fun values => values.any fun t =>
            f.factors (some t) = .ok ⟨1, 0, 1⟩ && !f.verify t) = true := by
    decide +kernel
  simp only [Option.any_eq_true, Bool.and_eq_true, decide_eq_true_eq, Bool.not_eq_true'] at hchecked
  obtain ⟨f, hf, _, hvalues, t, rfl, hfactors, hverify⟩ := hchecked
  rw [World.text_solution]
  exact ⟨f, t, eq_ok_of_toOption hf, eq_ok_of_toOption hvalues, hfactors, hverify⟩

theorem parse_ambiguous :
    SolutionText.parse (some (⟨"", ["p.sol"]⟩ : Path).text) (unifyBreaks "SAT\n1 -1 0\n".toList) =
      .error (.bothWays 1 (some "p.sol")) := by
  rw [World.text_solution]
  rfl

/-- The solution is reported, though it does not satisfy the second clause of the problem. -/
theorem contradicted_reported :
    (∃ w', (run (m := StateM World) "WARNING" (.quiet ["p.cnf"])).run.run contradicted =
        (.ok true, w') ∧ w'.output = "p.cnf: SATISFIABLE\n1 x 0 = 1\n") ∧
      ∃ f t, contradicted.problem (Path.ofText "p.cnf") = .ok f ∧
        contradicted.recorded ⟨"", ["p.sol"]⟩ = .ok (.satisfiable, some t) ∧
        f.factors (some t) = .ok ⟨1, 0, 1⟩ ∧ f.verify t = false := by
  constructor
  · exact ⟨_, Prod.ext (eq_ok_of_toOption (by decide +kernel)) rfl, by decide +kernel⟩
  · obtain ⟨f, t, hf, hvalues, hfactors, hverify⟩ := exists_contradicted
    have hread := World.read_beside World.conjunction "SAT\n1 -2 3 0\n"
    refine ⟨f, t, (World.problem_of_read hread.1).2 hf, ?_, hfactors, hverify⟩
    exact (World.recorded_beside _ _).trans (verdictOf_ok hvalues)

theorem reported_factors_backed_at_files :
    (∃ source f sol t, contradicted.problem (Path.ofText "p.cnf") = .ok f ∧
        (Path.ofText "p.cnf").solution = .ok sol ∧ f.factors (some t) = .ok ⟨1, 0, 1⟩ ∧
        Backed contradicted f sol t source) ∧
      ∃ message w', (processAll (m := StateM World) 30 (.quiet []) [Path.ofText "p.cnf"]).run.run
        ambiguous = (.ok [⟨"p.cnf", .failed message⟩], w') := by
  obtain ⟨f, t, hf, hvalues, hfactors, -⟩ := exists_contradicted
  constructor
  · have hprocessed := tries_processProblem 30 (.quiet []) (Path.ofText "p.cnf") contradicted
      contradicted rfl
    obtain ⟨hresult, -⟩ := hprocessed.eq_of_cached (World.prepared_beside _ hf)
    have hrecorded : contradicted.recorded ⟨"", ["p.sol"]⟩ = .ok (.satisfiable, some t) := by
      exact (World.recorded_beside _ _).trans (verdictOf_ok hvalues)
    have hrecord : conclude f (Path.ofText "p.cnf") .cache .satisfiable (some t) =
        .ok ⟨(Path.ofText "p.cnf").text, .solved .cache .satisfiable (some ⟨1, 0, 1⟩)⟩ := by
      rw [conclude, if_pos rfl, hfactors]
      rfl
    rw [hrecorded] at hresult
    exact ⟨_, (reported_factors_backed 30 (.quiet []) (Path.ofText "p.cnf") contradicted).1 _ _ _ _
      (Prod.ext (hresult.trans hrecord) rfl) rfl⟩
  · have hrecorded : ambiguous.recorded ⟨"", ["p.sol"]⟩ =
        .error (.solution (.bothWays 1 (some "p.sol"))) := by
      exact (World.recorded_beside _ _).trans (verdictOf_error parse_ambiguous)
    exact ⟨_, (reported_factors_backed 30 (.quiet []) (Path.ofText "p.cnf") ambiguous).2 f _ _
      (World.prepared_beside _ hf) (.bothWays hrecorded)⟩

end Contradicted

end Batch

end FactorSearch
