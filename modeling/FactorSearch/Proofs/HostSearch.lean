import FactorSearch.Batch
import FactorSearch.Proofs.Branching
import FactorSearch.Proofs.FileHost
import FactorSearch.Proofs.ReadVariables
import FactorSearch.Proofs.Recording
import FactorSearch.Proofs.Verdict

/-!
Reading a problem and searching for its solution on a host with files. Both leave the
files as they are. A search ends as some trace does, which may be stopped only if there is
a limit of time. The assignment of a model that it finds passes the check.
-/

namespace FactorSearch

open Text FileHost Search

namespace BatchRequest

/-- No setting is left without a value. -/
structure Complete (r : BatchRequest) : Prop where
  heuristic : ∃ h, r.heuristic = .given h
  decisionBudget : ∃ limit, r.decisionBudget = .given limit
  timeLimit : ∃ limit, r.timeLimit = .given limit
  verbosity : ∃ v, r.verbosity = .given v

/-- The usual settings of a batch, and no statistics. -/
def quiet (paths : List String) : BatchRequest :=
  ⟨paths, .given Heuristic.standard, false, .given none, .given none, true, true, none, false,
    .given 0⟩

theorem complete_quiet (paths : List String) : (quiet paths).Complete :=
  ⟨⟨_, rfl⟩, ⟨_, rfl⟩, ⟨_, rfl⟩, ⟨_, rfl⟩⟩

end BatchRequest

namespace World

variable (w : World) (p : Path)

/-- The problem at a path. -/
def problem : Except Fault Factorisation :=
  match w.read p.text with
  | .error e => .error (.access e)
  | .ok text => (Factorisation.ofText (some p.text) (unifyBreaks text)).2.mapError Fault.problem

end World

namespace Batch

variable {σ : Type} [FileHost σ] {w : World} {α ε : Type}

theorem tries_access_of_looks {x : ExceptT AccessError (StateM σ) α}
    {f : World → Except AccessError α} {post : Except Fault α → World → Prop}
    (hx : Looks files x.run f) (h : post ((f w).mapError Fault.access) w) :
    Tries w (access x) post :=
  Ends.bind (Ends.of_looks hx (Ends.pure h))

theorem tries_lifted {g : ε → Fault} {x : Except ε α} {post : Except Fault α → World → Prop}
    (h : post (x.mapError g) w) : Tries w (lifted g x : ExceptT Fault (StateM σ) α) post :=
  Ends.pure h

theorem tries_needed {use : BareUse} {setting : Setting α} {post : Except Fault α → World → Prop}
    (hgiven : ∀ a, setting = .given a → post (.ok a) w)
    (hbare : setting = .bare → post (.error (.bare use)) w) :
    Tries w (needed use setting : ExceptT Fault (StateM σ) α) post := by
  cases setting with
  | given a => exact Tries.pure (hgiven a rfl)
  | bare => exact Tries.throw (hbare rfl)

theorem keeps_log (threshold : ℕ) (e : LogEntry) : Keeps files (log threshold e : StateM σ Unit) := by
  unfold log
  split
  · exact printError_keeps e.text
  · exact Keeps.pure ()

theorem looks_readText (path : String) :
    Looks files (Host.readText path : ExceptT AccessError (StateM σ) (List Char)).run
      fun w => (w.read path).map unifyBreaks := (readFile_looks path).map unifyBreaks

theorem tries_readProblem {threshold : ℕ} {p : Path} {post : Except Fault Factorisation → World → Prop}
    (h : post (w.problem p) w) :
    Tries w (readProblem threshold p : ExceptT Fault (StateM σ) Factorisation) post := by
  unfold readProblem
  refine Tries.bind (tries_access_of_looks (looks_readText p.text) ?_)
  unfold World.problem at h
  cases hread : w.read p.text with
  | error e =>
    rw [hread] at h
    exact h
  | ok text =>
    rw [hread] at h
    exact Tries.bind (Tries.forM (fun e => keeps_log threshold e) (tries_lifted h))

/-- An outcome of a search below a node that the settings of a request allow. -/
def Found (r : BatchRequest) (n : Node) (out : Outcome) : Prop :=
  ∃ h limit budget bs, r.heuristic = .given h ∧ r.timeLimit = .given limit ∧
    (r.decisionBudget = .given budget ∨ r.decisionBudget = .bare ∧ budget = none) ∧
    Trace (limit ≠ none) ⟨h, r.pureLiterals, budget⟩ 0 Context.fresh [⟨n, none⟩] bs out

theorem keeps_watch_proceed (threshold : ℕ) (limit : TimeLimit) (progress : Bool) (name : String)
    (start : ℕ) : Keeps files (watch (m := StateM σ) threshold limit progress name start).proceed := by
  cases limit with
  | none => exact Keeps.pure true
  | some t => exact Keeps.bind clock_keeps fun _ => Keeps.pure _

theorem keeps_watch_decided (threshold : ℕ) (limit : TimeLimit) (progress : Bool) (name : String)
    (start : ℕ) (b : Branching) :
    Keeps files ((watch (m := StateM σ) threshold limit progress name start).decided b) := by
  refine Keeps.bind (keeps_log threshold _) fun _ => ?_
  split
  · split
    · exact showProgress_keeps name _
    · exact Keeps.pure ()
  · exact Keeps.pure ()

/-- Without a limit of time the search is not stopped. -/
theorem not_stops_watch (threshold : ℕ) (progress : Bool) (name : String) (start : ℕ) :
    ¬ Stops (watch (m := StateM σ) threshold none progress name start) := by
  rintro ⟨s, hs⟩
  cases hs

theorem keeps_run {σ : Type} {files : σ → World} {watch : Watch (StateM σ)}
    (hproceed : Keeps files watch.proceed) (hdecided : ∀ b, Keeps files (watch.decided b))
    (o : Options) (start : ℕ) (ctx : Context) (frames : List Frame) :
    Keeps files (Search.run watch o start ctx frames) := by
  induction hb : bound frames using Nat.strong_induction_on generalizing ctx frames with
  | h k ih =>
    subst hb
    cases frames with
    | nil =>
      rw [Search.run]
      exact Keeps.pure _
    | cons f rest =>
      rw [Search.run]
      refine hproceed.bind fun go => ?_
      cases go with
      | false => exact Keeps.pure _
      | true =>
        obtain ⟨next, answer⟩ := step o start ctx f
        cases answer with
        | conflict => exact ih _ (bound_drop f rest) next rest rfl
        | model n => exact Keeps.pure _
        | exhausted => exact Keeps.pure _
        | split n l lighter =>
          have hlt := bound_split f rest n l.negate l (lighter _ rfl) (lighter _ rfl)
          exact (hdecided _).bind fun _ => ih _ hlt next _ rfl

theorem tries_decisionBudget {watch : Watch (StateM σ)} (hproceed : Keeps files watch.proceed)
    {r : BatchRequest} {n : Node} {post : Except Fault (Option ℕ) → World → Prop}
    (hgiven : ∀ budget, r.decisionBudget = .given budget → post (.ok budget) w)
    (hbare : r.decisionBudget = .bare → post (.ok none) w ∧ post (.error (.bare .below)) w) :
    Tries w (decisionBudget watch r n) post := by
  unfold decisionBudget
  cases hbudget : r.decisionBudget with
  | given budget => exact Tries.pure (hgiven budget hbudget)
  | bare =>
    obtain ⟨hnone, herror⟩ := hbare hbudget
    refine Tries.bind (Tries.of_keeps hproceed fun go => ?_)
    show Tries w _ post
    split
    · exact Tries.throw herror
    · exact Tries.pure hnone

/-- What the clock of the host says in a state. -/
def reading (s : σ) : ℕ := ((Host.clock : StateM σ ℕ).run s).1

/-- An outcome of a search as the host makes it, watched from some reading of its clock on. -/
def Sought (σ : Type) [FileHost σ] (r : BatchRequest) (n : Node) (out : Outcome) : Prop :=
  ∃ h limit budget, r.heuristic = .given h ∧ r.timeLimit = .given limit ∧
    (r.decisionBudget = .given budget ∨ r.decisionBudget = .bare ∧ budget = none) ∧
    ∃ (threshold : ℕ) (name : String) (s₀ s : σ),
      ((Search.solve (watch (m := StateM σ) threshold limit r.progress name (reading s₀))
        ⟨h, r.pureLiterals, budget⟩ n Context.fresh).run s).1 = out

theorem Sought.found {r : BatchRequest} {n : Node} {out : Outcome} (hout : Sought σ r n out) :
    Found r n out := by
  obtain ⟨h, limit, budget, hh, hlimit, hbudget, threshold, name, s₀, s, rfl⟩ := hout
  obtain ⟨bs, htrace⟩ := exists_trace_run
    (watch (m := StateM σ) threshold limit r.progress name (reading s₀))
    ⟨h, r.pureLiterals, budget⟩ 0 Context.fresh [⟨n, none⟩] s
  refine ⟨h, limit, budget, bs, hh, hlimit, hbudget, htrace.mono ?_⟩
  rintro hstops rfl
  exact not_stops_watch threshold r.progress name _ hstops

/-- What the search of a request ends with; the files are kept. -/
theorem tries_search {threshold : ℕ} {r : BatchRequest} {name : String} {n : Node}
    {post : Except Fault (Outcome × Option Binary64) → World → Prop}
    (hok : ∀ out seconds, Sought σ r n out → post (.ok (out, seconds)) w)
    (hbare : ∀ use, ¬ r.Complete → post (.error (.bare use)) w) :
    Tries w (search threshold r name n : ExceptT Fault (StateM σ) _) post := by
  unfold search
  refine Tries.bind (tries_needed (fun h hh => ?_) fun hnone => hbare _ fun hc => ?_)
  case refine_2 => exact hc.heuristic.elim fun _ h => by rw [hnone] at h; cases h
  refine Tries.bind (tries_needed (fun limit hlimit => ?_) fun hnone => hbare _ fun hc => ?_)
  case refine_2 => exact hc.timeLimit.elim fun _ h => by rw [hnone] at h; cases h
  refine Tries.bind (Tries.of_answer clock_keeps fun s₀ => ?_)
  generalize hstart : ((Host.clock : StateM σ ℕ).run s₀).1 = start
  refine Tries.bind (Tries.of_keeps (keeps_log _ _) fun _ => ?_)
  refine Tries.bind (Tries.of_keeps workTime_keeps fun before => ?_)
  have hproceed : Keeps files (watch (m := StateM σ) threshold limit r.progress name start).proceed :=
    keeps_watch_proceed threshold limit r.progress name start
  have hsolve : ∀ budget,
      (r.decisionBudget = .given budget ∨ r.decisionBudget = .bare ∧ budget = none) →
      Tries w (do
        let outcome ← ExceptT.lift (Search.solve
          (watch (m := StateM σ) threshold limit r.progress name start) ⟨h, r.pureLiterals, budget⟩ n
          Context.fresh)
        let after ← liftM (Host.workTime (m := StateM σ))
        liftM (log (m := StateM σ) threshold (LogEntry.searchEnds outcome))
        return (outcome, Statistics.between before after)) post := by
    intro budget hbudget
    refine Tries.bind (Tries.of_answer
      (keeps_run hproceed (keeps_watch_decided _ _ _ _ _) _ _ _ _) fun s => ?_)
    refine Tries.bind (Tries.of_keeps workTime_keeps fun after => ?_)
    refine Tries.bind (Tries.of_keeps (keeps_log _ _) fun _ => Tries.pure (hok _ _ ?_))
    subst hstart
    exact ⟨h, limit, budget, hh, hlimit, hbudget, threshold, name, s₀, s, rfl⟩
  refine Tries.bind (tries_decisionBudget hproceed (fun budget hbudget => ?_) fun hnone => ⟨?_, ?_⟩)
  · exact hsolve budget (Or.inl hbudget)
  · exact hsolve none (Or.inr ⟨hnone, rfl⟩)
  · exact hbare _ fun hc => hc.decisionBudget.elim fun _ h => by rw [hnone] at h; cases h

/-- A search without limits is not given up. -/
theorem Found.decided {r : BatchRequest} {n : Node} {out : Outcome} (h : Found r n out)
    (htime : r.timeLimit = .given none) (hdecisions : r.decisionBudget = .given none) :
    out.verdict.status ≠ .indeterminate := by
  obtain ⟨_, limit, budget, bs, -, hlimit, hbudget, htrace⟩ := h
  rw [htime] at hlimit
  cases hlimit
  have hnone : budget = none := by
    rcases hbudget with hbudget | ⟨-, hnone⟩
    · rw [hdecisions] at hbudget
      cases hbudget
      rfl
    · exact hnone
  subst hnone
  have hverdict := (htrace.mono fun h => h rfl).not_aborted rfl
  intro hstatus
  cases hout : out.verdict with
  | satisfiable n => rw [hout] at hstatus; cases hstatus
  | unsatisfiable => rw [hout] at hstatus; cases hstatus
  | aborted => exact hverdict hout

section Model

variable {r : BatchRequest} {f : Factorisation} {out : Outcome} {values : Option (Table Int Bool)}

theorem modelOf_satisfiable (f : Factorisation) (n : Node) :
    modelOf f (.satisfiable n) = (fun t => some (f.complete t)) <$> n.assignmentMap := rfl

/-- A model that was found has an assignment. -/
theorem exists_modelOf (hf : f.Readable) (hout : Found r f.root out) :
    ∃ values, modelOf f out.verdict = .ok values := by
  obtain ⟨h, limit, budget, bs, -, -, -, htrace⟩ := hout
  cases hverdict : out.verdict with
  | satisfiable n =>
    obtain ⟨fixed, hfixed, -⟩ := htrace.exists_fixed hverdict
    obtain ⟨t, ht⟩ := hfixed.exists_assignmentMap hf.path_root
    rw [modelOf_satisfiable, ht]
    exact ⟨_, rfl⟩
  | unsatisfiable => exact ⟨none, rfl⟩
  | aborted => exact ⟨none, rfl⟩

/-- There is an assignment exactly if the verdict is that there is a model. -/
theorem isSome_of_modelOf {v : Verdict} (hvalues : modelOf f v = .ok values) :
    values.isSome = decide (v.status = .satisfiable) := by
  cases v with
  | satisfiable n =>
    rw [modelOf_satisfiable] at hvalues
    cases ht : n.assignmentMap with
    | error e =>
      rw [ht] at hvalues
      cases hvalues
    | ok t =>
      rw [ht] at hvalues
      cases hvalues
      rfl
  | unsatisfiable =>
    cases hvalues
    rfl
  | aborted =>
    cases hvalues
    rfl

/-- What it takes for an assignment to be found: a completed path that decides every clause. -/
theorem exists_path_of_modelOf {t : Table Int Bool} (hf : f.Readable) (hout : Found r f.root out)
    (hvalues : modelOf f out.verdict = .ok (some t)) :
    ∃ n fixed m, f.root.Descends n fixed ∧ (∀ c ∈ f.root.clauses, ∃ l ∈ fixed, l ∈ c.literals) ∧
      n.assignmentMap = .ok m ∧ t = f.complete m := by
  obtain ⟨h, limit, budget, bs, -, -, -, htrace⟩ := hout
  cases hverdict : out.verdict with
  | satisfiable n =>
    rw [hverdict, modelOf_satisfiable] at hvalues
    obtain ⟨fixed, hfixed, hclauses⟩ := htrace.exists_fixed hverdict
    obtain ⟨m, hm⟩ := hfixed.exists_assignmentMap hf.path_root
    rw [hm] at hvalues
    cases hvalues
    exact ⟨n, fixed, m, hfixed, hclauses, hm, rfl⟩
  | unsatisfiable =>
    rw [hverdict] at hvalues
    cases hvalues
  | aborted =>
    rw [hverdict] at hvalues
    cases hvalues

/-- The assignment of a model has values for the variables of the problem and no others. -/
theorem exists_get?_iff_of_modelOf {t : Table Int Bool} (hf : f.Readable) (hout : Found r f.root out)
    (hvalues : modelOf f out.verdict = .ok (some t)) (x : Int) :
    (∃ b, t.get? x = some b) ↔ x ∈ f.vars := by
  obtain ⟨n, fixed, m, hfixed, -, hm, rfl⟩ := exists_path_of_modelOf hf hout hvalues
  constructor
  · rintro ⟨b, hx⟩
    rw [f.get?_complete] at hx
    by_cases hmem : x ∈ f.vars
    · exact hmem
    · rw [if_neg hmem, Option.or_none] at hx
      have hfix := Node.mem_of_get?_assignmentMap hm hx
      have hroot : f.root.assignments = [] := by
        unfold Node.assignments
        rw [hf.path_root]
        rfl
      rw [hfixed.assignments_eq, hroot, List.nil_append] at hfix
      obtain ⟨l, hl, rfl⟩ := List.mem_map.1 hfix
      exact hfixed.occurs l hl
  · intro hmem
    rw [f.get?_complete, if_pos hmem]
    cases m.get? x with
    | none => exact ⟨false, rfl⟩
    | some b => exact ⟨b, rfl⟩

/-- The assignment of a model passes the check, and can be written. -/
theorem verify_of_modelOf {t : Table Int Bool} (hf : f.Readable) (hout : Found r f.root out)
    (hvalues : modelOf f out.verdict = .ok (some t)) :
    f.verify t = true ∧ SolutionText.Recordable t := by
  constructor
  · obtain ⟨n, fixed, m, hfixed, hclauses, hm, rfl⟩ := exists_path_of_modelOf hf hout hvalues
    exact Factorisation.verify_complete hfixed hclauses hm
  · intro x b hx
    exact hf.bounds_of_mem_vars ((exists_get?_iff_of_modelOf hf hout hvalues x).1 ⟨b, hx⟩)

/-- Where there is no assignment, nothing satisfies the problem, unless the search gave up. -/
theorem not_satisfies_of_modelOf (hout : Found r f.root out)
    (hvalues : modelOf f out.verdict = .ok none) (hstatus : out.verdict.status ≠ .indeterminate)
    (v : Valuation) : ¬ v.Satisfies f.root.clauses := by
  obtain ⟨h, limit, budget, bs, -, -, -, htrace⟩ := hout
  cases hverdict : out.verdict with
  | satisfiable n =>
    have hsome := isSome_of_modelOf hvalues
    rw [hverdict] at hsome
    cases hsome
  | unsatisfiable =>
    exact fun hv => htrace.not_satisfiable hverdict _ List.mem_cons_self ⟨v, hv⟩
  | aborted =>
    rw [hverdict] at hstatus
    exact absurd rfl hstatus

end Model

end Batch

end FactorSearch
