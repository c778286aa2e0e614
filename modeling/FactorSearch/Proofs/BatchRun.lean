import FactorSearch.Proofs.Processing

/-!
A whole batch on a host with files. The problems are those that the paths stand for in the
files of the beginning. They are processed one after another, each with the files that the
one before it left; a fault that is not of one problem ends the batch. Then the summary is
written, and the answer tells whether some record failed.
-/

namespace FactorSearch

open FileHost

namespace World

/-- The entries of a folder that are named as problems, in order of their paths. -/
def namedProblems (folder : String) (names : List String) : List String :=
  let lead := if folder = "" ∨ folder.endsWith "/" then folder else folder ++ "/"
  ((names.filter fun name => name.endsWith ".cnf").map fun name => lead ++ name).mergeSort
    (fun a b => a ≤ b)

theorem sorted_namedProblems (folder : String) (names : List String) :
    (namedProblems folder names).Pairwise (· ≤ ·) := by
  have hsorted : (namedProblems folder names).Pairwise (fun a b => decide (a ≤ b)) := by
    apply List.pairwise_mergeSort
    · intro a b c hab hbc
      exact decide_eq_true (String.le_trans (of_decide_eq_true hab) (of_decide_eq_true hbc))
    · intro a b
      rw [Bool.or_eq_true, decide_eq_true_eq, decide_eq_true_eq]
      exact String.le_total a b
  exact hsorted.imp of_decide_eq_true

/-- The problems that a path stands for. -/
def expand (w : World) (path : String) : List Path :=
  if w.isDirectory path then
    match w.list path with
    | .ok names => (namedProblems path names).map Path.ofText
    | .error _ => []
  else [Path.ofText path]

variable {w : World} {path : String}

theorem exists_list_of_isDirectory (h : w.isDirectory path = true) :
    ∃ names, w.list path = .ok names := by
  unfold isDirectory at h
  split at h
  · rename_i hnull hlocate
    unfold list
    rw [hnull, hlocate]
    exact ⟨_, rfl⟩
  · cases h

end World

namespace Batch

section Actions

variable {m : Type → Type} [Monad m] [Host m]

/-- The part of a batch that makes the records, with the work done before it. -/
def gather (level : String) (r : BatchRequest) :
    ExceptT Fault m (Option Nat × List ProblemRecord) := do
  let threshold ← lifted Fault.level (LogLevel.threshold level)
  let before ← Host.workTime (m := m)
  let problems ← access (Host.collectProblems r.paths)
  let records ← processAll threshold r problems
  return (before, records)

/-- The part of a batch that reports on the records. -/
def report (r : BatchRequest) (before : Option Nat) (records : List ProblemRecord) :
    ExceptT Fault m Bool := do
  match r.summary with
  | none => pure ()
  | some path =>
    access (Host.writeFile path (JsonValue.arr (records.map ProblemRecord.summary)).text)
  if 1 ≤ (← needed (m := m) .atLeast r.verbosity) then
    let after ← Host.workTime (m := m)
    printLine (m := m) (Statistics.total (Statistics.between before after))
  return !records.any ProblemRecord.isFailed

theorem run_eq [LawfulMonad m] (level : String) (r : BatchRequest) :
    (run level r : ExceptT Fault m Bool) = gather level r >>= fun x => report r x.1 x.2 := by
  symm
  unfold gather report
  simp only [bind_assoc, pure_bind]
  rfl

end Actions

/-- A problem is settled: it makes its record, or a fault of its own makes a failed one. -/
inductive Settled (r : BatchRequest) (p : Path) (w : World) : ProblemRecord → World → Prop
  | concluded {record : ProblemRecord} {w' : World} (h : Processed r p w (.ok record) w') :
      Settled r p w record w'
  | failed {e : Fault} {w' : World} (h : Processed r p w (.error e) w') (he : e.isLocal = true) :
      Settled r p w ⟨p.text, .failed e.message⟩ w'

/-- The record that a problem makes, unless a fault that is not its own comes first. -/
def reported (p : Path) : Except Fault ProblemRecord → Option ProblemRecord
  | .ok record => some record
  | .error e => if e.isLocal then some ⟨p.text, .failed e.message⟩ else none

/-- A host has processed a problem and made its record. -/
def Handled (σ : Type) [FileHost σ] (r : BatchRequest) (p : Path) (w : World)
    (record : ProblemRecord) (w' : World) : Prop :=
  ∃ result, Attempted σ r p w result w' ∧ reported p result = some record

/-- A host has processed problems in order and made their records. -/
inductive Handles (σ : Type) [FileHost σ] (r : BatchRequest) :
    World → List Path → List ProblemRecord → World → Prop
  | done (w : World) : Handles σ r w [] [] w
  | next {w w' w'' : World} {p : Path} {rest : List Path} {record : ProblemRecord}
      {records : List ProblemRecord} (h : Handled σ r p w record w')
      (hrest : Handles σ r w' rest records w'') :
      Handles σ r w (p :: rest) (record :: records) w''

theorem Handled.settled {σ : Type} [FileHost σ] {r : BatchRequest} {p : Path} {w w' : World}
    {record : ProblemRecord} (h : Handled σ r p w record w') : Settled r p w record w' := by
  obtain ⟨result, hattempt, hreported⟩ := h
  unfold reported at hreported
  split at hreported
  · cases hreported
    exact .concluded hattempt.processed
  · split at hreported
    · rename_i he
      cases hreported
      exact .failed hattempt.processed he
    · cases hreported

/-- How processing problems in order can end, and with which files. -/
inductive Batched (r : BatchRequest) :
    World → List Path → Except Fault (List ProblemRecord) → World → Prop
  | done (w : World) : Batched r w [] (.ok []) w
  | escaped {w w' : World} {p : Path} {rest : List Path} {e : Fault}
      (h : Processed r p w (.error e) w') (he : e.isLocal = false) :
      Batched r w (p :: rest) (.error e) w'
  | settled {w w' w'' : World} {p : Path} {rest : List Path} {record : ProblemRecord}
      {result : Except Fault (List ProblemRecord)} (h : Settled r p w record w')
      (hrest : Batched r w' rest result w'') :
      Batched r w (p :: rest) (result.map (record :: ·)) w''

theorem Settled.problem_eq {r : BatchRequest} {p : Path} {w w' : World} {record : ProblemRecord}
    (h : Settled r p w record w') : record.problem = p.text := by
  cases h with
  | concluded h => exact h.problem_eq
  | failed => rfl

/-- The batch of one problem. -/
theorem Batched.of_singleton {r : BatchRequest} {p : Path} {w w' : World}
    {result : Except Fault (List ProblemRecord)} (h : Batched r w [p] result w') :
    (∃ e, Processed r p w (.error e) w' ∧ e.isLocal = false ∧ result = .error e) ∨
      ∃ record, Settled r p w record w' ∧ result = .ok [record] := by
  cases h with
  | escaped h he => exact Or.inl ⟨_, h, he, rfl⟩
  | settled h hrest =>
    cases hrest
    exact Or.inr ⟨_, h, rfl⟩

/-- The files after the summary. -/
def Summarised (r : BatchRequest) (records : List ProblemRecord) (w w' : World) : Prop :=
  match r.summary with
  | none => w' = w
  | some path =>
    w.write path (JsonValue.arr (records.map ProblemRecord.summary)).text = .ok w'

theorem Summarised.eq_or_put {r : BatchRequest} {records : List ProblemRecord} {w w' : World}
    (h : Summarised r records w w') :
    w' = w ∨ ∃ path q text, r.summary = some path ∧ w.Writable path q ∧ w' = w.put q text := by
  unfold Summarised at h
  split at h
  · exact Or.inl h
  · rename_i path hpath
    obtain ⟨q, hq, rfl⟩ := World.exists_writable_of_write h
    exact Or.inr ⟨path, q, _, hpath, hq, rfl⟩

/-- How the report can end, and with which files. -/
inductive Reported (r : BatchRequest) (records : List ProblemRecord) (w : World) :
    Except Fault Bool → World → Prop
  | unwritten {path : String} {e : AccessError} (hpath : r.summary = some path)
      (he : w.write path (JsonValue.arr (records.map ProblemRecord.summary)).text = .error e) :
      Reported r records w (.error (.access e)) w
  | bare {w' : World} (h : Summarised r records w w') (hbare : r.verbosity = .bare) :
      Reported r records w (.error (.bare .atLeast)) w'
  | done {w' : World} (h : Summarised r records w w') :
      Reported r records w (.ok (!records.any ProblemRecord.isFailed)) w'

theorem Reported.good_eq {r : BatchRequest} {records : List ProblemRecord} {w w' : World} {good : Bool}
    (h : Reported r records w (.ok good) w') : good = !records.any ProblemRecord.isFailed := by
  cases h
  rfl

variable {σ : Type} [FileHost σ] {w : World} {α ε : Type}

theorem tries_access {x : ExceptT AccessError (StateM σ) α} {post : Except Fault α → World → Prop}
    (h : Tries w x fun r w' => post (r.mapError Fault.access) w') : Tries w (access x) post :=
  Ends.bind (h.mono fun _ _ hr => Ends.pure hr)

theorem looks_problemsIn (folder : String) :
    Looks files (Host.problemsIn folder : ExceptT AccessError (StateM σ) (List String)).run
      fun w => (w.list folder).map (World.namedProblems folder) :=
  (listDirectory_looks folder).map (World.namedProblems folder)

theorem tries_collectProblems (paths : List String) (w : World) :
    Tries w (Host.collectProblems paths : ExceptT AccessError (StateM σ) (List Path))
      fun r w' => r = .ok (paths.flatMap w.expand) ∧ w' = w := by
  induction paths with
  | nil => exact Tries.pure ⟨rfl, rfl⟩
  | cons path rest ih =>
    unfold Host.collectProblems
    refine Tries.bind (Tries.lift (Ends.of_looks (isDirectory_looks path) ?_))
    rw [List.flatMap_cons]
    show Tries w _ _
    unfold World.expand
    split
    · rename_i hdir
      obtain ⟨names, hnames⟩ := World.exists_list_of_isDirectory hdir
      refine Tries.bind (Ends.of_looks (looks_problemsIn path) ?_)
      rw [hnames]
      refine Tries.bind (ih.mono ?_)
      rintro _ _ ⟨rfl, rfl⟩
      exact Tries.pure ⟨rfl, rfl⟩
    · refine Tries.bind (ih.mono ?_)
      rintro _ _ ⟨rfl, rfl⟩
      exact Tries.pure ⟨rfl, rfl⟩

theorem tries_handleAll (threshold : ℕ) (r : BatchRequest) (ps : List Path) (w : World) :
    Tries w (processAll threshold r ps : ExceptT Fault (StateM σ) (List ProblemRecord))
      fun result w' => Batched r w ps result w' ∧
        ∀ records, result = .ok records → Handles σ r w ps records w' := by
  induction ps generalizing w with
  | nil =>
    refine Tries.pure ⟨.done w, ?_⟩
    rintro _ ⟨⟩
    exact .done w
  | cons p rest ih =>
    have hnext : ∀ record w', Handled σ r p w record w' → Tries w' (do
        return record :: (← (processAll threshold r rest : ExceptT Fault (StateM σ) _)))
        fun result w'' => Batched r w (p :: rest) result w'' ∧
          ∀ records, result = .ok records → Handles σ r w (p :: rest) records w'' := by
      intro record w' hhandled
      refine Tries.bind ((ih w').mono ?_)
      rintro result w'' ⟨hrest, hhandles⟩
      have hall := Batched.settled hhandled.settled hrest
      cases result with
      | error e => exact ⟨hall, fun _ h => nomatch h⟩
      | ok records =>
        refine Tries.pure ⟨hall, ?_⟩
        rintro _ ⟨⟩
        exact .next hhandled (hhandles _ rfl)
    unfold processAll
    refine Tries.bind (Tries.tryCatch ((tries_attempt threshold r p w).mono ?_))
    intro result w' hattempt
    cases result with
    | ok record => exact hnext record w' ⟨_, hattempt, rfl⟩
    | error e =>
      show Tries w' _ _
      split
      · rename_i he
        refine Tries.bind (Tries.of_keeps (keeps_printLine _) fun _ => Tries.pure ?_)
        exact hnext _ w' ⟨_, hattempt, if_pos he⟩
      · rename_i he
        exact Tries.throw ⟨.escaped hattempt.processed (by simpa using he), fun _ h => nomatch h⟩

/-- Processing problems in order ends in one of the ways listed. -/
theorem tries_processAll (threshold : ℕ) (r : BatchRequest) (ps : List Path) (w : World) :
    Tries w (processAll threshold r ps : ExceptT Fault (StateM σ) (List ProblemRecord))
      (Batched r w ps) := (tries_handleAll threshold r ps w).mono fun _ _ h => h.1

theorem tries_report (r : BatchRequest) (before : Option ℕ) (records : List ProblemRecord)
    (w : World) :
    Tries w (report r before records : ExceptT Fault (StateM σ) Bool) (Reported r records w) := by
  have hshow : ∀ w', Summarised r records w w' → Tries w' (do
      if 1 ≤ (← needed (m := StateM σ) .atLeast r.verbosity) then
        let after ← Host.workTime (m := StateM σ)
        printLine (m := StateM σ) (Statistics.total (Statistics.between before after))
      return !records.any ProblemRecord.isFailed) (Reported r records w) := by
    intro w' hw'
    refine Tries.bind (tries_needed (fun v _ => ?_) fun hbare => .bare hw' hbare)
    show Tries w' _ _
    split
    · refine Tries.bind (Tries.of_keeps workTime_keeps fun after => ?_)
      exact Tries.bind (Tries.of_keeps (keeps_printLine _) fun _ => Tries.pure (.done hw'))
    · exact Tries.pure (.done hw')
  unfold report
  unfold Summarised at hshow
  cases hsummary : r.summary with
  | none =>
    rw [hsummary] at hshow
    exact hshow w rfl
  | some path =>
    rw [hsummary] at hshow
    exact Tries.bind (tries_write hshow fun e he => .unwritten hsummary he)

/-- How making the records can end: the level of the log is unknown, or the problems that
the paths stand for are processed. -/
inductive Gathered (level : String) (r : BatchRequest) (w : World) :
    Except Fault (List ProblemRecord) → World → Prop
  | unknown {u : UnknownLevel} (h : LogLevel.threshold level = .error u) :
      Gathered level r w (.error (.level u)) w
  | batched {threshold : ℕ} {result : Except Fault (List ProblemRecord)} {w' : World}
      (h : LogLevel.threshold level = .ok threshold)
      (hresult : Batched r w (r.paths.flatMap w.expand) result w') : Gathered level r w result w'

/-- The path of a file stands for one problem. -/
theorem Gathered.of_file {level path : String} {r : BatchRequest} {w w' : World}
    {result : Except Fault (List ProblemRecord)} (h : Gathered level r w result w')
    (hpaths : r.paths = [path]) (hfile : w.isDirectory path = false) :
    (∃ u, LogLevel.threshold level = .error u ∧ result = .error (.level u)) ∨
      Batched r w [Path.ofText path] result w' := by
  cases h with
  | unknown hlevel => exact Or.inl ⟨_, hlevel, rfl⟩
  | batched _ hresult =>
    rw [hpaths, List.flatMap_singleton, World.expand, hfile, if_neg Bool.false_ne_true] at hresult
    exact Or.inr hresult

theorem tries_gather (level : String) (r : BatchRequest) (w : World) :
    Tries w (gather level r : ExceptT Fault (StateM σ) (Option ℕ × List ProblemRecord))
      fun result w' => Gathered level r w (result.map Prod.snd) w' ∧
        ∀ x, result = .ok x → Handles σ r w (r.paths.flatMap w.expand) x.2 w' := by
  unfold gather
  refine Tries.bind (tries_lifted ?_)
  cases hlevel : LogLevel.threshold level with
  | error u => exact ⟨.unknown hlevel, fun _ h => nomatch h⟩
  | ok threshold =>
    refine Tries.bind (Tries.of_keeps workTime_keeps fun before => ?_)
    refine Tries.bind (tries_access ((tries_collectProblems r.paths w).mono ?_))
    rintro _ _ ⟨rfl, rfl⟩
    refine Tries.bind ((tries_handleAll threshold r _ _).mono ?_)
    rintro result w' ⟨hresult, hhandles⟩
    cases result with
    | error e => exact ⟨.batched hlevel hresult, fun _ h => nomatch h⟩
    | ok records =>
      refine Tries.pure ⟨.batched hlevel hresult, ?_⟩
      rintro _ ⟨⟩
      exact hhandles _ rfl

/-- The batch comes to its end with an answer, after it has made these records. -/
structure Completes (level : String) (r : BatchRequest) (s : σ) (records : List ProblemRecord)
    (good : Bool) (s' : σ) : Prop where
  ended : (run (m := StateM σ) level r).run.run s = (.ok good, s')
  gathered : ∃ before t, (gather (m := StateM σ) level r).run.run s = (.ok (before, records), t)

section Completes

variable {level : String} {r : BatchRequest} {s s' : σ} {records : List ProblemRecord} {good : Bool}

/-- A batch that comes to its end has made records and reported on them. -/
theorem Completes.exists_handles (h : Completes level r s records good s') :
    ∃ w, Gathered level r (files s) (.ok records) w ∧
      Handles σ r (files s) (r.paths.flatMap (files s).expand) records w ∧
      Reported r records w (.ok good) (files s') := by
  obtain ⟨hrun, before, t, hgather⟩ := h
  have hgathered := tries_gather level r (files s) s rfl
  rw [hgather] at hgathered
  refine ⟨files t, hgathered.1, hgathered.2 _ rfl, ?_⟩
  have hreport := tries_report r before records (files t) t rfl
  rw [run_eq, run_bind_ok hgather] at hrun
  rw [hrun] at hreport
  exact hreport

theorem Completes.exists_reported (h : Completes level r s records good s') :
    ∃ w, Gathered level r (files s) (.ok records) w ∧
      Reported r records w (.ok good) (files s') := by
  obtain ⟨w, hgathered, -, hreported⟩ := h.exists_handles
  exact ⟨w, hgathered, hreported⟩

/-- A batch comes to its end, or a fault ends it while records are made or reported on. -/
theorem completes_or_fault (level : String) (r : BatchRequest) (s : σ) :
    (∃ records good s', Completes level r s records good s') ∨
      ∃ e s', (run (m := StateM σ) level r).run.run s = (.error e, s') ∧
        (Gathered level r (files s) (.error e) (files s') ∨
          ∃ records w, Gathered level r (files s) (.ok records) w ∧
            Reported r records w (.error e) (files s')) := by
  have hgathered := tries_gather level r (files s) s rfl
  cases hgather : (gather (m := StateM σ) level r).run.run s with
  | mk result t =>
    rw [hgather] at hgathered
    cases result with
    | error e =>
      refine Or.inr ⟨e, t, ?_, Or.inl hgathered.1⟩
      rw [run_eq, run_bind_error hgather]
    | ok x =>
      obtain ⟨before, records⟩ := x
      have hreported := tries_report r before records (files t) t rfl
      have hrun : (run (m := StateM σ) level r).run.run s = (report (m := StateM σ) r before records).run.run t := by
        rw [run_eq, run_bind_ok hgather]
      cases hreport : (report (m := StateM σ) r before records).run.run t with
      | mk answer s' =>
        rw [hreport] at hreported hrun
        cases answer with
        | ok good => exact Or.inl ⟨records, good, s', hrun, before, t, hgather⟩
        | error e => exact Or.inr ⟨e, s', hrun, Or.inr ⟨records, files t, hgathered.1, hreported⟩⟩

end Completes

end Batch

end FactorSearch
