import FactorSearch.Proofs.HostSearch

/-!
What becomes of one problem on a host with files: the ways in which processing can end,
with the record or the fault and the files that are left. A verdict may be read from a
recorded solution or found by a search, and only what was found is written.
-/

namespace FactorSearch

open Text FileHost Search

/-- The verdict and the assignment that a text records. -/
def verdictOf (p : Path) (text : List Char) : Except Fault (Status × Option (Table Int Bool)) :=
  match SolutionText.parse (some p.text) (unifyBreaks text) with
  | .error e => .error (.solution e)
  | .ok values => .ok (if values.isSome then .satisfiable else .unsatisfiable, values)

theorem verdictOf_ok {p : Path} {text : List Char} {values : Option (Table Int Bool)}
    (h : SolutionText.parse (some p.text) (unifyBreaks text) = .ok values) :
    verdictOf p text = .ok (if values.isSome then .satisfiable else .unsatisfiable, values) := by
  simp only [verdictOf, h]

theorem verdictOf_error {p : Path} {text : List Char} {e : SolutionError}
    (h : SolutionText.parse (some p.text) (unifyBreaks text) = .error e) :
    verdictOf p text = .error (.solution e) := by
  simp only [verdictOf, h]

namespace World

variable (w : World) (p : Path)

/-- The verdict and the assignment that are recorded at a path. -/
def recorded : Except Fault (Status × Option (Table Int Bool)) :=
  match w.read p.text with
  | .error e => .error (.access e)
  | .ok text => verdictOf p text

/-- The problem at a path, where its solution is kept, and whether that is to be read. -/
def prepared (useCache : Bool) : Except Fault (Factorisation × Path × Bool) :=
  match w.problem p, p.solution with
  | .error e, _ => .error e
  | .ok _, .error e => .error (.emptyName e)
  | .ok f, .ok sol =>
    if useCache then
      match w.present sol.text with
      | .error e => .error (.access e)
      | .ok cached => .ok (f, sol, cached)
    else .ok (f, sol, false)

variable {w p}

theorem problem_of_prepared {useCache cached : Bool} {f : Factorisation} {sol : Path}
    (h : w.prepared p useCache = .ok (f, sol, cached)) : w.problem p = .ok f ∧ p.solution = .ok sol := by
  unfold prepared at h
  split at h
  · cases h
  · cases h
  · rename_i hproblem hsol
    split at h
    · split at h <;> cases h
      exact ⟨hproblem, hsol⟩
    · cases h
      exact ⟨hproblem, hsol⟩

theorem solution_eq_of_prepared {useCache cached : Bool} {f : Factorisation} {sol sol' : Path}
    (h : w.prepared p useCache = .ok (f, sol', cached)) (hsol : p.solution = .ok sol) : sol = sol' :=
  Except.ok.inj (hsol.symm.trans (problem_of_prepared h).2)

theorem recorded_of_read {cs : List Char} (h : w.read p.text = .ok cs) :
    w.recorded p = verdictOf p cs := by
  unfold recorded
  simp only [h]

theorem exists_verdictOf {status : Status} {values : Option (Table Int Bool)}
    (h : w.recorded p = .ok (status, values)) :
    ∃ cs, w.read p.text = .ok cs ∧ verdictOf p cs = .ok (status, values) := by
  unfold recorded at h
  split at h
  · cases h
  · rename_i cs hread
    exact ⟨cs, hread, h⟩

theorem status_of_recorded {status : Status} {values : Option (Table Int Bool)}
    (h : w.recorded p = .ok (status, values)) :
    status = if values.isSome then .satisfiable else .unsatisfiable := by
  obtain ⟨cs, -, hverdict⟩ := exists_verdictOf h
  unfold verdictOf at hverdict
  split at hverdict
  · cases hverdict
  · cases hverdict
    rfl

theorem isSome_of_recorded {status : Status} {values : Option (Table Int Bool)}
    (h : w.recorded p = .ok (status, values)) : values.isSome = decide (status = .satisfiable) := by
  rw [status_of_recorded h]
  cases values <;> rfl

section Beside

theorem text_problem : (Path.ofText "p.cnf").text = "p.cnf" := by decide +kernel

theorem text_solution : (⟨"", ["p.sol"]⟩ : Path).text = "p.sol" := by decide +kernel

theorem solution_problem : (Path.ofText "p.cnf").solution = .ok ⟨"", ["p.sol"]⟩ :=
  eq_ok_of_toOption (by decide +kernel)

theorem problem_of_read {problem : String} {f : Factorisation}
    (hread : w.read "p.cnf" = .ok problem.toList) :
    w.problem (Path.ofText "p.cnf") = .ok f ↔
      (Factorisation.ofText (some "p.cnf") (unifyBreaks problem.toList)).2 = .ok f := by
  unfold World.problem
  rw [text_problem, hread]
  simp only
  cases (Factorisation.ofText (some "p.cnf") (unifyBreaks problem.toList)).2 with
  | error e => exact ⟨fun h => (nomatch h), fun h => (nomatch h)⟩
  | ok g => exact ⟨fun h => by cases h; rfl, fun h => by cases h; rfl⟩

theorem prepared_beside {problem : String} (solution : String) {f : Factorisation}
    (hf : (Factorisation.ofText (some "p.cnf") (unifyBreaks problem.toList)).2 = .ok f) :
    (beside problem solution).prepared (Path.ofText "p.cnf") true =
      .ok (f, ⟨"", ["p.sol"]⟩, true) := by
  obtain ⟨hproblem, hsolution⟩ := read_beside problem solution
  unfold prepared
  rw [(problem_of_read hproblem).2 hf, solution_problem]
  simp only [text_solution, present_of_read hsolution, if_true]

theorem recorded_beside (problem solution : String) :
    (beside problem solution).recorded ⟨"", ["p.sol"]⟩ = verdictOf ⟨"", ["p.sol"]⟩ solution.toList := by
  apply recorded_of_read
  rw [text_solution]
  exact (read_beside problem solution).2

end Beside

end World

namespace ProblemRecord

/-- What a record says: the verdict and the factors, or the message. -/
def outcome (record : ProblemRecord) : Except String (Status × Option Factors) :=
  match record.result with
  | .solved _ status factors => .ok (status, factors)
  | .failed message => .error message

end ProblemRecord

namespace Batch

section Actions

variable {m : Type → Type} [Monad m] [Host m]

/-- The part of processing a problem that prints the verdict and makes the record. -/
def announce (f : Factorisation) (p : Path) (source : RecordSource) (status : Status)
    (values : Option (Table Int Bool)) : ExceptT Fault m ProblemRecord := do
  printLine (m := m) (p.text ++ ": " ++ status.name)
  let factors ←
    if status = .satisfiable then do
      let factors ← lifted Fault.factor (f.factors values)
      printLine (m := m) (← lifted id (factorLine factors))
      pure (some factors)
    else pure none
  return ⟨p.text, .solved source status factors⟩

/-- The part of processing a problem that comes to a verdict and announces it. -/
def decideProblem (threshold : ℕ) (r : BatchRequest) (f : Factorisation) (p sol : Path)
    (cached : Bool) : ExceptT Fault m ProblemRecord := do
  let (source, status, values) ←
    if cached then do
      let (status, values) ← readSolution (m := m) f sol
      pure (.cache, status, values)
    else searchSolution threshold r f p sol
  announce f p source status values

theorem processProblem_eq (threshold : ℕ) (r : BatchRequest) (p : Path) :
    (processProblem threshold r p : ExceptT Fault m ProblemRecord) = (do
      let f ← readProblem threshold p
      let sol ← lifted Fault.emptyName p.solution
      let cached ← if r.useCache then access (Host.present sol.text) else pure false
      decideProblem threshold r f p sol cached) := by
  rfl

end Actions

/-- The record of a verdict, unless its factors cannot be read or shown. -/
def conclude (f : Factorisation) (p : Path) (source : RecordSource) (status : Status)
    (values : Option (Table Int Bool)) : Except Fault ProblemRecord :=
  if status = .satisfiable then
    match f.factors values with
    | .error e => .error (.factor e)
    | .ok factors =>
      match factorLine factors with
      | .error e => .error e
      | .ok _ => .ok ⟨p.text, .solved source status (some factors)⟩
  else .ok ⟨p.text, .solved source status none⟩

theorem exists_of_isSome {values : Option (Table Int Bool)} {status : Status}
    (h : values.isSome = decide (status = .satisfiable)) (hstatus : status = .satisfiable) :
    ∃ t, values = some t := by
  rw [hstatus, decide_eq_true rfl] at h
  exact Option.isSome_iff_exists.1 h

/-- The ways in which a verdict makes a record or none. -/
inductive Concluded (f : Factorisation) (p : Path) (source : RecordSource) (status : Status)
    (values : Option (Table Int Bool)) : Except Fault ProblemRecord → Prop
  | plain (h : status ≠ .satisfiable) :
      Concluded f p source status values (.ok ⟨p.text, .solved source status none⟩)
  | unread {e : FactorError} (h : status = .satisfiable) (he : f.factors values = .error e) :
      Concluded f p source status values (.error (.factor e))
  | unshown {factors : Factors} (h : status = .satisfiable) (hfactors : f.factors values = .ok factors)
      (hlong : factorLine factors = .error .longNumber) :
      Concluded f p source status values (.error .longNumber)
  | shown {factors : Factors} {line : String} (h : status = .satisfiable)
      (hfactors : f.factors values = .ok factors) (hline : factorLine factors = .ok line) :
      Concluded f p source status values (.ok ⟨p.text, .solved source status (some factors)⟩)

theorem concluded (f : Factorisation) (p : Path) (source : RecordSource) (status : Status)
    (values : Option (Table Int Bool)) :
    Concluded f p source status values (conclude f p source status values) := by
  unfold conclude
  by_cases hstatus : status = .satisfiable
  · rw [if_pos hstatus]
    cases hfactors : f.factors values with
    | error e => exact .unread hstatus hfactors
    | ok factors =>
      simp only
      cases hline : factorLine factors with
      | ok line => exact .shown hstatus hfactors hline
      | error e =>
        have hlong : e = .longNumber := by
          unfold factorLine at hline
          split at hline <;> cases hline
          rfl
        subst hlong
        exact .unshown hstatus hfactors hline
  · rw [if_neg hstatus]
    exact .plain hstatus

theorem problem_of_conclude {source : RecordSource} {status : Status}
    {values : Option (Table Int Bool)} {record : ProblemRecord}
    (h : conclude f p source status values = .ok record) : record.problem = p.text := by
  have hcases := concluded f p source status values
  rw [h] at hcases
  cases hcases <;> rfl

/-- What was found is written if it is to be saved, unless the search gave up. -/
def Saved (r : BatchRequest) (sol : Path) (status : Status) (values : Option (Table Int Bool))
    (w w' : World) : Prop :=
  if r.save = true ∧ status ≠ .indeterminate then
    w.write sol.text (SolutionText.write values) = .ok w'
  else w' = w

/-- Why the statistics of a search cannot be shown: it is not said whether they should be, or
they should be and a count is too large for a rate. -/
inductive Unreported (r : BatchRequest) : Fault → Prop
  | bare (h : ¬ r.Complete) : Unreported r (.bare .atLeast)
  | overflow {c : CountTooLarge} {v : Int} {negative : Bool} (hv : r.verbosity = .given v)
      (hshown : 1 ≤ v) (h : Binary64.ofInt c.count = .infinite negative) :
      Unreported r (.statistics c)

/-- A search for the solution of a problem, and the assignment that it ends with. -/
structure Solved (r : BatchRequest) (p : Path) (w : World) (f : Factorisation) (sol : Path)
    (out : Outcome) (values : Option (Table Int Bool)) : Prop where
  prepared : w.prepared p r.useCache = .ok (f, sol, false)
  found : Found r f.root out
  model : modelOf f out.verdict = .ok values

/-- How processing a problem can end, and with which files. -/
inductive Processed (r : BatchRequest) (p : Path) (w : World) :
    Except Fault ProblemRecord → World → Prop
  | unprepared {e : Fault} (h : w.prepared p r.useCache = .error e) : Processed r p w (.error e) w
  | unrecorded {f : Factorisation} {sol : Path} {e : Fault}
      (h : w.prepared p r.useCache = .ok (f, sol, true)) (he : w.recorded sol = .error e) :
      Processed r p w (.error e) w
  | recorded {f : Factorisation} {sol : Path} {status : Status} {values : Option (Table Int Bool)}
      (h : w.prepared p r.useCache = .ok (f, sol, true))
      (hvalues : w.recorded sol = .ok (status, values)) :
      Processed r p w (conclude f p .cache status values) w
  | refused {f : Factorisation} {sol : Path} {use : BareUse}
      (h : w.prepared p r.useCache = .ok (f, sol, false)) (hr : ¬ r.Complete) :
      Processed r p w (.error (.bare use)) w
  | unwritten {f : Factorisation} {sol : Path} {out : Outcome} {values : Option (Table Int Bool)}
      {e : AccessError} (h : Solved r p w f sol out values)
      (hsave : r.save = true) (hstatus : out.verdict.status ≠ .indeterminate)
      (he : w.write sol.text (SolutionText.write values) = .error e) :
      Processed r p w (.error (.access e)) w
  | unreported {f : Factorisation} {sol : Path} {out : Outcome} {values : Option (Table Int Bool)}
      {w' : World} {e : Fault} (h : Solved r p w f sol out values)
      (hsaved : Saved r sol out.verdict.status values w w') (he : Unreported r e) :
      Processed r p w (.error e) w'
  | searched {f : Factorisation} {sol : Path} {out : Outcome} {values : Option (Table Int Bool)}
      {w' : World} (h : Solved r p w f sol out values)
      (hsaved : Saved r sol out.verdict.status values w w') (seconds : Option Binary64) :
      Processed r p w (conclude f p (.search out.context seconds) out.verdict.status values) w'

section Processed

variable {r : BatchRequest} {p sol : Path} {w w' : World} {f : Factorisation}
  {result : Except Fault ProblemRecord}

theorem Processed.eq_of_unprepared {e : Fault} (h : Processed r p w result w')
    (he : w.prepared p r.useCache = .error e) : result = .error e ∧ w' = w := by
  cases h with
  | unprepared h =>
    rw [he] at h
    cases h
    exact ⟨rfl, rfl⟩
  | unrecorded h => rw [he] at h; cases h
  | recorded h => rw [he] at h; cases h
  | refused h => rw [he] at h; cases h
  | unwritten h => have h := h.prepared; rw [he] at h; cases h
  | unreported h => have h := h.prepared; rw [he] at h; cases h
  | searched h => have h := h.prepared; rw [he] at h; cases h

/-- Where a recorded solution is to be read, it alone makes the record. -/
theorem Processed.eq_of_cached (h : Processed r p w result w')
    (hp : w.prepared p r.useCache = .ok (f, sol, true)) :
    (result = do
      let (status, values) ← w.recorded sol
      conclude f p .cache status values) ∧ w' = w := by
  cases h with
  | unprepared h => rw [hp] at h; cases h
  | unrecorded h he =>
    rw [hp] at h
    cases h
    rw [he]
    exact ⟨rfl, rfl⟩
  | recorded h hvalues =>
    rw [hp] at h
    cases h
    rw [hvalues]
    exact ⟨rfl, rfl⟩
  | refused h => rw [hp] at h; cases h
  | unwritten h => have h := h.prepared; rw [hp] at h; cases h
  | unreported h => have h := h.prepared; rw [hp] at h; cases h
  | searched h => have h := h.prepared; rw [hp] at h; cases h

theorem Processed.problem_eq {record : ProblemRecord} (h : Processed r p w (.ok record) w') :
    record.problem = p.text := by
  generalize hresult : (.ok record : Except Fault ProblemRecord) = result at h
  cases h with
  | recorded => exact problem_of_conclude hresult.symm
  | searched => exact problem_of_conclude hresult.symm
  | _ => cases hresult

end Processed

/-- What can follow a search: its verdict is saved and announced, unless something fails. -/
inductive Ensues (r : BatchRequest) (p : Path) (w : World) (f : Factorisation) (sol : Path)
    (out : Outcome) (values : Option (Table Int Bool)) : Except Fault ProblemRecord → World → Prop
  | unwritten {e : AccessError} (hsave : r.save = true) (hstatus : out.verdict.status ≠ .indeterminate)
      (he : w.write sol.text (SolutionText.write values) = .error e) :
      Ensues r p w f sol out values (.error (.access e)) w
  | unreported {w' : World} {e : Fault} (hsaved : Saved r sol out.verdict.status values w w')
      (he : Unreported r e) : Ensues r p w f sol out values (.error e) w'
  | searched {w' : World} (hsaved : Saved r sol out.verdict.status values w w')
      (seconds : Option Binary64) :
      Ensues r p w f sol out values
        (conclude f p (.search out.context seconds) out.verdict.status values) w'

/-- How processing a problem can end on a host, where a search is one that the host makes. -/
inductive Attempted (σ : Type) [FileHost σ] (r : BatchRequest) (p : Path) (w : World) :
    Except Fault ProblemRecord → World → Prop
  | unsearched {result : Except Fault ProblemRecord} {w' : World} (h : Processed r p w result w')
      (hp : ∀ f sol, w.prepared p r.useCache ≠ .ok (f, sol, false)) : Attempted σ r p w result w'
  | refused {f : Factorisation} {sol : Path} {use : BareUse}
      (h : w.prepared p r.useCache = .ok (f, sol, false)) (hr : ¬ r.Complete) :
      Attempted σ r p w (.error (.bare use)) w
  | sought {f : Factorisation} {sol : Path} {out : Outcome} {values : Option (Table Int Bool)}
      {result : Except Fault ProblemRecord} {w' : World}
      (h : w.prepared p r.useCache = .ok (f, sol, false)) (hout : Sought σ r f.root out)
      (hvalues : modelOf f out.verdict = .ok values)
      (hend : Ensues r p w f sol out values result w') : Attempted σ r p w result w'

variable {σ : Type} [FileHost σ] {w : World}

theorem Attempted.processed {r : BatchRequest} {p : Path} {w' : World}
    {result : Except Fault ProblemRecord} (h : Attempted σ r p w result w') :
    Processed r p w result w' := by
  cases h with
  | unsearched h => exact h
  | refused h hr => exact .refused h hr
  | sought h hout hvalues hend =>
    have hsolved : Solved r p w _ _ _ _ := ⟨h, hout.found, hvalues⟩
    cases hend with
    | unwritten hsave hstatus he => exact .unwritten hsolved hsave hstatus he
    | unreported hsaved he => exact .unreported hsolved hsaved he
    | searched hsaved seconds => exact .searched hsolved hsaved seconds

theorem overflow_of_counted {title : String} {count : Int} {seconds : Option Binary64}
    {c : CountTooLarge} (h : Statistics.counted title count seconds = .error c) :
    ∃ negative, Binary64.ofInt c.count = .infinite negative := by
  cases seconds with
  | none => cases h
  | some x =>
    cases hrate : Statistics.rate count x with
    | ok s =>
      simp only [Statistics.counted, Option.mapM_some, hrate] at h
      cases h
    | error e =>
      simp only [Statistics.counted, Option.mapM_some, hrate] at h
      cases h
      unfold Statistics.rate at hrate
      split at hrate
      · cases hrate
      split at hrate
      · rename_i negative hinfinite
        cases hrate
        exact ⟨negative, hinfinite⟩
      · cases hrate

theorem overflow_of_lines {counts : Counts} {seconds megabytes : Option Binary64} {c : CountTooLarge}
    (h : Statistics.lines counts seconds megabytes = .error c) :
    ∃ negative, Binary64.ofInt c.count = .infinite negative := by
  unfold Statistics.lines at h
  cases hdecisions : Statistics.counted "decisions             : " counts.decisions seconds with
  | error e =>
    rw [hdecisions] at h
    cases h
    exact overflow_of_counted hdecisions
  | ok line =>
    cases hpropagations :
        Statistics.counted "propagations          : " counts.propagations seconds with
    | error e =>
      rw [hdecisions, hpropagations] at h
      cases h
      exact overflow_of_counted hpropagations
    | ok line =>
      rw [hdecisions, hpropagations] at h
      cases h

theorem tries_write {path text : String} {post : Except Fault Unit → World → Prop}
    (hok : ∀ w', w.write path text = .ok w' → post (.ok ()) w')
    (herror : ∀ e, w.write path text = .error e → post (.error (.access e)) w) :
    Tries w (access (Host.writeFile path text) : ExceptT Fault (StateM σ) Unit) post := by
  refine Ends.bind ?_
  rintro s rfl
  refine Ends.pure ?_
  cases hwrite : (files s).write path text with
  | ok w' =>
    obtain ⟨hanswer, hfiles⟩ := writeFile_ok path text s w' hwrite
    rw [hanswer, hfiles]
    exact hok w' hwrite
  | error e =>
    obtain ⟨hanswer, hfiles⟩ := writeFile_error path text s e hwrite
    rw [hanswer, hfiles]
    exact herror e hwrite

theorem keeps_printLine (line : String) : Keeps files (printLine line : StateM σ Unit) :=
  print_keeps _

theorem tries_searchSolution {threshold : ℕ} {r : BatchRequest} {f : Factorisation} {p sol : Path}
    {post : Except Fault (RecordSource × Status × Option (Table Int Bool)) → World → Prop}
    (hf : f.Readable) (hrefused : ∀ use, ¬ r.Complete → post (.error (.bare use)) w)
    (hunwritten : ∀ out values e, Sought σ r f.root out → modelOf f out.verdict = .ok values →
      r.save = true → out.verdict.status ≠ .indeterminate →
      w.write sol.text (SolutionText.write values) = .error e → post (.error (.access e)) w)
    (hunreported : ∀ out values w' e, Sought σ r f.root out → modelOf f out.verdict = .ok values →
      Saved r sol out.verdict.status values w w' → Unreported r e → post (.error e) w')
    (hsearched : ∀ out values w' seconds, Sought σ r f.root out → modelOf f out.verdict = .ok values →
      Saved r sol out.verdict.status values w w' →
      post (.ok (.search out.context seconds, out.verdict.status, values)) w') :
    Tries w (searchSolution threshold r f p sol : ExceptT Fault (StateM σ) _) post := by
  unfold searchSolution
  refine Tries.bind (tries_search (fun out seconds hout => ?_) hrefused)
  obtain ⟨values, hvalues⟩ := exists_modelOf hf hout.found
  have hreport : ∀ w', Saved r sol out.verdict.status values w w' → Tries w' (do
      if 1 ≤ (← needed (m := StateM σ) .atLeast r.verbosity) then
        let memory ← Host.memory (m := StateM σ)
        let lines ← lifted Fault.statistics
          (Statistics.lines (Counts.ofContext out.context) seconds (Statistics.megabytes memory))
        lines.forM (fun line => printLine (m := StateM σ) line)
      return (.search out.context seconds, out.verdict.status, values)) post := by
    intro w' hsaved
    refine Tries.bind (tries_needed (fun v hv => ?_) fun hnone => ?_)
    · show Tries w' _ post
      split
      · rename_i hshown
        refine Tries.bind (Tries.of_keeps memory_keeps fun memory => ?_)
        refine Tries.bind (tries_lifted ?_)
        cases hlines : Statistics.lines (Counts.ofContext out.context) seconds
            (Statistics.megabytes memory) with
        | error c =>
          obtain ⟨negative, hinfinite⟩ := overflow_of_lines hlines
          exact hunreported out values w' _ hout hvalues hsaved (.overflow hv hshown hinfinite)
        | ok lines =>
          refine Tries.bind (Tries.forM (fun line => keeps_printLine line) ?_)
          exact Tries.pure (hsearched out values w' seconds hout hvalues hsaved)
      · exact Tries.pure (hsearched out values w' seconds hout hvalues hsaved)
    · exact hunreported out values w' _ hout hvalues hsaved
        (.bare fun hc => hc.verbosity.elim fun _ h => by rw [hnone] at h; cases h)
  refine Tries.bind (tries_lifted ?_)
  rw [hvalues]
  show Tries w _ post
  simp only
  split
  · rename_i hsave
    rw [Bool.and_eq_true, decide_eq_true_eq] at hsave
    refine Tries.bind (tries_write (fun w' hw' => ?_) fun e he => ?_)
    · exact hreport w' (by rwa [Saved, if_pos hsave])
    · exact hunwritten out values e hout hvalues hsave.1 hsave.2 he
  · rename_i hsave
    rw [Bool.and_eq_true, decide_eq_true_eq] at hsave
    exact hreport w (by rw [Saved, if_neg hsave])

theorem tries_readSolution {f : Factorisation} {sol : Path}
    {post : Except Fault (Status × Option (Table Int Bool)) → World → Prop}
    (h : post (w.recorded sol) w) :
    Tries w (readSolution f sol : ExceptT Fault (StateM σ) _) post := by
  unfold readSolution
  refine Tries.bind (tries_access_of_looks (looks_readText sol.text) ?_)
  cases hread : w.read sol.text with
  | error e =>
    unfold World.recorded at h
    rw [hread] at h
    exact h
  | ok text =>
    rw [World.recorded_of_read hread, verdictOf] at h
    refine Tries.bind (tries_lifted ?_)
    unfold Factorisation.readSolution
    cases hparse : SolutionText.parse (some sol.text) (unifyBreaks text) with
    | error e =>
      simp only [hparse] at h
      exact h
    | ok values =>
      simp only [hparse] at h
      exact Tries.pure h

theorem tries_announce {f : Factorisation} {p : Path} {source : RecordSource} {status : Status}
    {values : Option (Table Int Bool)} {post : Except Fault ProblemRecord → World → Prop}
    (h : post (conclude f p source status values) w) :
    Tries w (announce f p source status values : ExceptT Fault (StateM σ) ProblemRecord) post := by
  unfold announce
  refine Tries.bind (Tries.of_keeps (keeps_printLine _) fun _ => ?_)
  show Tries w _ post
  unfold conclude at h
  by_cases hstatus : status = .satisfiable
  · rw [if_pos hstatus] at h ⊢
    refine Tries.bind (tries_lifted ?_)
    cases hfactors : f.factors values with
    | error e =>
      rw [hfactors] at h
      exact h
    | ok factors =>
      simp only [hfactors] at h
      refine Tries.bind (tries_lifted ?_)
      cases hline : factorLine factors with
      | error e =>
        rw [hline] at h
        exact h
      | ok line =>
        rw [hline] at h
        exact Tries.bind (Tries.of_keeps (keeps_printLine _) fun _ =>
          Tries.bind (Tries.pure (Tries.pure h)))
  · rw [if_neg hstatus] at h ⊢
    exact Tries.bind (Tries.pure (Tries.pure h))

theorem readable_of_problem {p : Path} {f : Factorisation} (h : w.problem p = .ok f) :
    f.Readable := by
  unfold World.problem at h
  split at h
  · cases h
  · cases hread : (Factorisation.ofText (some p.text) (unifyBreaks _)).2 with
    | error e =>
      rw [hread] at h
      cases h
    | ok g =>
      rw [hread] at h
      cases h
      exact Factorisation.readable_ofText hread

theorem tries_decideProblem {threshold : ℕ} {r : BatchRequest} {f : Factorisation} {p sol : Path}
    {cached : Bool} (h : w.prepared p r.useCache = .ok (f, sol, cached)) :
    Tries w (decideProblem threshold r f p sol cached : ExceptT Fault (StateM σ) ProblemRecord)
      (Attempted σ r p w) := by
  have hf := readable_of_problem (World.problem_of_prepared h).1
  unfold decideProblem
  cases cached with
  | true =>
    have hcached : ∀ f' sol', w.prepared p r.useCache ≠ .ok (f', sol', false) := by
      rw [h]
      exact fun _ _ heq => nomatch heq
    refine Tries.bind (tries_readSolution ?_)
    cases hrecorded : w.recorded sol with
    | error e => exact .unsearched (.unrecorded h hrecorded) hcached
    | ok answer =>
      exact Tries.bind (Tries.pure (tries_announce (.unsearched (.recorded h hrecorded) hcached)))
  | false =>
    refine Tries.bind (tries_searchSolution hf (fun use hr => .refused h hr) ?_ ?_ ?_)
    · intro out values e hout hvalues hsave hstatus he
      exact .sought h hout hvalues (.unwritten hsave hstatus he)
    · intro out values w' e hout hvalues hsaved he
      exact .sought h hout hvalues (.unreported hsaved he)
    · intro out values w' seconds hout hvalues hsaved
      exact tries_announce (.sought h hout hvalues (.searched hsaved seconds))

theorem tries_attempt (threshold : ℕ) (r : BatchRequest) (p : Path) (w : World) :
    Tries w (processProblem threshold r p : ExceptT Fault (StateM σ) ProblemRecord)
      (Attempted σ r p w) := by
  rw [processProblem_eq]
  have hunprepared : ∀ {e}, w.prepared p r.useCache = .error e →
      Attempted σ r p w (.error e) w := by
    intro e he
    refine .unsearched (.unprepared he) ?_
    rw [he]
    exact fun _ _ heq => nomatch heq
  refine Tries.bind (tries_readProblem ?_)
  cases hproblem : w.problem p with
  | error e =>
    apply hunprepared
    simp only [World.prepared, hproblem]
  | ok f =>
    refine Tries.bind (tries_lifted ?_)
    cases hsol : p.solution with
    | error e =>
      apply hunprepared
      simp only [World.prepared, hproblem, hsol]
    | ok sol =>
      show Tries w (if r.useCache = true then _ else _) _
      split
      · rename_i huse
        refine Tries.bind (tries_access_of_looks (present_looks sol.text) ?_)
        cases hpresent : w.present sol.text with
        | error e =>
          apply hunprepared
          simp only [World.prepared, hproblem, hsol, huse, hpresent, if_true]
        | ok cached =>
          apply tries_decideProblem
          simp only [World.prepared, hproblem, hsol, huse, hpresent, if_true]
      · rename_i huse
        refine Tries.bind (Tries.pure (tries_decideProblem ?_))
        simp only [World.prepared, hproblem, hsol, huse, Bool.false_eq_true, if_false]

/-- Processing a problem ends in one of the ways listed. -/
theorem tries_processProblem (threshold : ℕ) (r : BatchRequest) (p : Path) (w : World) :
    Tries w (processProblem threshold r p : ExceptT Fault (StateM σ) ProblemRecord)
      (Processed r p w) := (tries_attempt threshold r p w).mono fun _ _ h => h.processed

end Batch

end FactorSearch
