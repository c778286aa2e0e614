import FactorSearch.Proofs.Reloading

/-!
What a batch leaves in its files. A place keeps its entry unless the summary is written
there or the solution of some problem, and such a solution is accounted for: a search with
saving on has found it, and it is right. A problem that fails leaves no solution, with one
exception. The verdict is written before the factors are read, so a problem that asks for a
bit which occurs in no clause fails after its solution has been written.
-/

namespace FactorSearch

open Text FileHost

namespace BitLayout

theorem get?_of_number_error {t : Table Int Bool} {vars : List Int} {b : MissingBit}
    (h : number t vars = .error b) : t.get? b.var = none := by
  unfold number at h
  generalize (0 : ℕ) = high at h
  induction vars generalizing high with
  | nil => cases h
  | cons v rest ih =>
    unfold numberFrom at h
    split at h
    · rename_i hv
      cases h
      exact hv
    · exact ih _ h

end BitLayout

namespace Factorisation

/-- Factors fail to be read only at a bit without a value. -/
theorem get?_of_factors_error {f : Factorisation} {t : Table Int Bool} {e : FactorError}
    (h : f.factors (some t) = .error e) : ∃ b, e = .missingBit b ∧ t.get? b.var = none := by
  have hsome : (some t <|> f.solution) = some t := rfl
  unfold factors at h
  simp only [hsome] at h
  cases hfirst : BitLayout.number t f.layout.first with
  | error b =>
    rw [hfirst] at h
    cases h
    exact ⟨b, rfl, BitLayout.get?_of_number_error hfirst⟩
  | ok first =>
    cases hsecond : BitLayout.number t f.layout.second with
    | error b =>
      rw [hfirst, hsecond] at h
      cases h
      exact ⟨b, rfl, BitLayout.get?_of_number_error hsecond⟩
    | ok second =>
      cases hproduct : BitLayout.number t f.layout.output with
      | error b =>
        rw [hfirst, hsecond, hproduct] at h
        cases h
        exact ⟨b, rfl, BitLayout.get?_of_number_error hproduct⟩
      | ok product =>
        rw [hfirst, hsecond, hproduct] at h
        cases h

end Factorisation

namespace Batch

open World

/-- A text that records a verdict on the problem which is right: nothing satisfies it, or the
assignment does. -/
structure Right (f : Factorisation) (values : Option (Table Int Bool)) (text : String) : Prop where
  parsed : ∀ source, SolutionText.parse source (unifyBreaks text.toList) = .ok values
  refuted : values = none → ∀ v : Valuation, ¬ v.Satisfies f.root.clauses
  verified : ∀ t, values = some t → f.verify t = true

/-- What the record of a problem says whose solution has been written. In the last case a bit
of an operand occurs in no clause. -/
inductive Left (f : Factorisation) (p : Path) (text : String) : ProblemRecord → Prop
  | refuted {ctx : Context} {seconds : Option Binary64} (h : Right f none text) :
      Left f p text ⟨p.text, .solved (.search ctx seconds) .unsatisfiable none⟩
  | solved {ctx : Context} {seconds : Option Binary64} {t : Table Int Bool}
      {factors : Factors} (h : Right f (some t) text) (hfactors : f.factors (some t) = .ok factors) :
      Left f p text ⟨p.text, .solved (.search ctx seconds) .satisfiable (some factors)⟩
  | missing {t : Table Int Bool} {b : MissingBit} (h : Right f (some t) text)
      (hb : f.factors (some t) = .error (.missingBit b)) (hvar : b.var ∉ f.vars) :
      Left f p text ⟨p.text, .failed b.message⟩

variable {r : BatchRequest} {p sol : Path} {w w₀ w' : World} {f : Factorisation} {q : Place}

theorem right_none (h : ∀ v : Valuation, ¬ v.Satisfies f.root.clauses) :
    Right f none (SolutionText.write none) where
  parsed source := by rw [SolutionText.unifyBreaks_write, SolutionText.parse_write_none]
  refuted _ := h
  verified _ h := nomatch h

theorem right_some {t : Table Int Bool} (h : f.verify t = true) (ht : SolutionText.Recordable t) :
    Right f (some (Table.ofList t.sorted)) (SolutionText.write (some t)) where
  parsed source := by rw [SolutionText.unifyBreaks_write, SolutionText.parse_write ht]
  refuted h := nomatch h
  verified u hu := by
    cases hu
    rw [Factorisation.verify_iff] at h ⊢
    simpa only [Table.get?_ofList_sorted] using h

/-- The text of what has been found is left, whatever becomes of the record. -/
theorem Solved.left {out : Search.Outcome} {values : Option (Table Int Bool)}
    {record : ProblemRecord} {seconds : Option Binary64}
    (h : Solved r p w f sol out values) (hstatus : out.verdict.status ≠ .indeterminate)
    (hrecord : conclude f p (.search out.context seconds) out.verdict.status values = .ok record ∨
      ∃ e, conclude f p (.search out.context seconds) out.verdict.status values = .error e ∧
        e.isLocal = true ∧ record = ⟨p.text, .failed e.message⟩) :
    Left f p (SolutionText.write values) record := by
  have hf := readable_of_problem (problem_of_prepared h.prepared).1
  have hsome := isSome_of_modelOf h.model
  have hcases := concluded f p (.search out.context seconds) out.verdict.status values
  cases values with
  | none =>
    have hright := right_none (not_satisfies_of_modelOf h.found h.model hstatus)
    have hunsat : out.verdict.status = .unsatisfiable := by
      cases hverdict : out.verdict.status with
      | satisfiable => rw [hverdict] at hsome; cases hsome
      | unsatisfiable => rfl
      | indeterminate => exact absurd hverdict hstatus
    rw [hunsat, conclude, if_neg (by decide)] at hrecord
    rcases hrecord with hrecord | ⟨e, he, -⟩
    · cases hrecord
      exact .refuted hright
    · cases he
  | some t =>
    obtain ⟨hverify, hrecordable⟩ := verify_of_modelOf hf h.found h.model
    have hright := right_some hverify hrecordable
    have hfactors := f.factors_congr (t := Table.ofList t.sorted) t.get?_ofList_sorted
    have hsat : out.verdict.status = .satisfiable := of_decide_eq_true hsome.symm
    generalize conclude f p _ _ _ = result at hrecord hcases
    cases hcases with
    | plain hne => exact absurd hsat hne
    | unread _ he =>
      obtain ⟨b, rfl, hb⟩ := Factorisation.get?_of_factors_error he
      rcases hrecord with hrecord | ⟨e, herror, -, rfl⟩
      · cases hrecord
      · cases herror
        refine .missing hright (hfactors.trans he) fun hvar => ?_
        obtain ⟨value, hvalue⟩ := (exists_get?_iff_of_modelOf hf h.found h.model b.var).2 hvar
        rw [hb] at hvalue
        cases hvalue
    | unshown =>
      rcases hrecord with hrecord | ⟨e, herror, he, -⟩
      · cases hrecord
      · cases herror
        cases he
    | shown _ hshown _ =>
      rcases hrecord with hrecord | ⟨e, herror, -⟩
      · cases hrecord
        rw [hsat]
        exact .solved hright (hfactors.trans hshown)
      · cases herror

/-- A problem leaves the files as they are, or a text in the place of its solution. -/
theorem Settled.left {record : ProblemRecord} (h : Settled r p w record w') :
    w' = w ∨ ∃ f sol q text, r.save = true ∧ w.problem p = .ok f ∧ p.solution = .ok sol ∧
      w.Writable sol.text q ∧ w' = w.put q text ∧ Left f p text record := by
  have hwritten : ∀ {f sol out values seconds}, Solved r p w f sol out values →
      Saved r sol out.verdict.status values w w' →
      (conclude f p (.search out.context seconds) out.verdict.status values = .ok record ∨
        ∃ e, conclude f p (.search out.context seconds) out.verdict.status values = .error e ∧
          e.isLocal = true ∧ record = ⟨p.text, .failed e.message⟩) →
      w' = w ∨ ∃ f sol q text, r.save = true ∧ w.problem p = .ok f ∧ p.solution = .ok sol ∧
        w.Writable sol.text q ∧ w' = w.put q text ∧ Left f p text record := by
    intro f sol out values seconds hsolved hsaved hrecord
    unfold Saved at hsaved
    split at hsaved
    · rename_i hsave
      obtain ⟨q, hq, rfl⟩ := exists_writable_of_write hsaved
      obtain ⟨hproblem, hsol⟩ := problem_of_prepared hsolved.prepared
      exact Or.inr ⟨f, sol, q, _, hsave.1, hproblem, hsol, hq, rfl, hsolved.left hsave.2 hrecord⟩
    · exact Or.inl hsaved
  cases h with
  | concluded h =>
    generalize hresult : (.ok record : Except Fault ProblemRecord) = result at h
    cases h with
    | recorded => exact Or.inl rfl
    | searched hsolved hsaved seconds => exact hwritten hsolved hsaved (Or.inl hresult.symm)
    | _ => cases hresult
  | @failed e _ h he =>
    generalize hresult : (.error e : Except Fault ProblemRecord) = result at h
    cases h with
    | unreported _ _ hunreported =>
      cases hresult
      cases hunreported <;> cases he
    | searched hsolved hsaved seconds =>
      exact hwritten hsolved hsaved (Or.inr ⟨e, hresult.symm, he, rfl⟩)
    | _ => exact Or.inl rfl

/-- The problem accounts for what lies at the place in the end: its solution belongs there, and
what was written is right. -/
def Accounts (r : BatchRequest) (w₀ w : World) (q : Place) (p : Path) (record : ProblemRecord) :
    Prop :=
  ∃ f sol text, r.save = true ∧ w₀.problem p = .ok f ∧ p.solution = .ok sol ∧
    w.Leads sol.text q ∧ entry? w q = some (.file (.text text)) ∧ Left f p text record

theorem Accounts.spared {record : ProblemRecord} (h : Accounts r w₀ w q p record)
    (hgrows : Grows w w') (hentry : entry? w' q = entry? w q) : Accounts r w₀ w' q p record := by
  obtain ⟨f, sol, text, hsave, hproblem, hsol, hleads, htext, hleft⟩ := h
  exact ⟨f, sol, text, hsave, hproblem, hsol, hgrows.leads _ _ hleads, hentry.trans htext, hleft⟩

/-- Every place is as before, or one of the problems accounts for it. -/
theorem Batched.accounted {ps : List Path} {records : List ProblemRecord}
    (h : Batched r w ps (.ok records) w') (hk : Kept r.useCache w₀ w) (q : Place) :
    entry? w' q = entry? w q ∨
      ∃ p record, (p, record) ∈ ps.zip records ∧ Accounts r w₀ w' q p record := by
  generalize hresult : (.ok records : Except Fault (List ProblemRecord)) = result at h
  induction h generalizing records with
  | done => exact Or.inl rfl
  | escaped => cases hresult
  | @settled w v w' p rest record result hsettled hrest ih =>
    cases result with
    | error e => cases hresult
    | ok records' =>
      cases hresult
      have hgrows := (hrest.kept (Kept.refl r.useCache v)).grows
      rcases ih (hsettled.kept hk) rfl with hkept | ⟨p', record', hmem, haccounts⟩
      · rcases hsettled.left with rfl | ⟨f, sol, q', text, hsave, hproblem, hsol, hq, rfl, hleft⟩
        · exact Or.inl hkept
        · by_cases hqq : q' = q
          · subst hqq
            refine Or.inr ⟨p, record, List.mem_cons_self, f, sol, text, hsave, hk.problem_eq hproblem,
              hsol, hgrows.leads _ _ (hq.leads.put hq.vacant text), ?_, hleft⟩
            rw [hkept, entry?_put_self hq.vacant.below_root]
          · exact Or.inl (by rw [hkept, entry?_put_of_ne hq.vacant.below_root text hqq])
      · exact Or.inr ⟨p', record', List.mem_cons_of_mem _ hmem, haccounts⟩

theorem Summarised.grows {records : List ProblemRecord} (h : Summarised r records w w') :
    Grows w w' := by
  rcases h.eq_or_put with rfl | ⟨_, q, _, -, hq, rfl⟩
  · exact .refl _
  · exact grows_put hq.vacant _

/-- The summary changes nothing but its own place. -/
theorem Summarised.entry?_eq {records : List ProblemRecord} (h : Summarised r records w w')
    (q : Place) :
    entry? w' q = entry? w q ∨ ∃ path, r.summary = some path ∧ w'.Leads path q := by
  rcases h.eq_or_put with rfl | ⟨path, q', text, hpath, hq, rfl⟩
  · exact Or.inl rfl
  · by_cases hqq : q' = q
    · subst hqq
      exact Or.inr ⟨path, hpath, hq.leads.put hq.vacant _⟩
    · exact Or.inl (entry?_put_of_ne hq.vacant.below_root _ hqq)

section Host

variable {σ : Type} [FileHost σ]

/-- Every place of the files is as before, or the summary was written there, or a problem
accounts for what was written. A single problem that fails leaves everything else as it was,
unless a bit that it asks for occurs in none of its clauses. -/
theorem verdicts_accounted {level : String} {s s' : σ} {records : List ProblemRecord} {good : Bool}
    (h : Completes level r s records good s') :
    (∀ q, entry? (files s') q = entry? (files s) q ∨
      (∃ path, r.summary = some path ∧ (files s').Leads path q) ∨
      ∃ p record, (p, record) ∈ (r.paths.flatMap (files s).expand).zip records ∧
        Accounts r (files s) (files s') q p record) ∧
    ∀ p message, r.paths.flatMap (files s).expand = [p] → records = [⟨p.text, .failed message⟩] →
      (∀ q, entry? (files s') q = entry? (files s) q ∨
        ∃ path, r.summary = some path ∧ (files s').Leads path q) ∨
      ∃ f t b, (files s).problem p = .ok f ∧ f.verify t = true ∧
        f.factors (some t) = .error (.missingBit b) ∧ b.var ∉ f.vars ∧ message = b.message := by
  have hall : ∀ q, entry? (files s') q = entry? (files s) q ∨
      (∃ path, r.summary = some path ∧ (files s').Leads path q) ∨
      ∃ p record, (p, record) ∈ (r.paths.flatMap (files s).expand).zip records ∧
        Accounts r (files s) (files s') q p record := by
    intro q
    obtain ⟨w, hgathered, hreported⟩ := h.exists_reported
    cases hreported with
    | done hsummary =>
      cases hgathered with
      | batched _ hbatched =>
        rcases hsummary.entry?_eq q with hentry | hpath
        · rw [hentry]
          rcases hbatched.accounted (Kept.refl _ _) q with hkept | ⟨p, record, hmem, haccounts⟩
          · exact Or.inl hkept
          · exact Or.inr (Or.inr ⟨p, record, hmem, haccounts.spared hsummary.grows hentry⟩)
        · exact Or.inr (Or.inl hpath)
  refine ⟨hall, ?_⟩
  rintro p message hpaths rfl
  rw [or_iff_not_imp_right]
  intro hnone q
  rcases hall q with hkept | hpath | ⟨p', record, hmem, f, sol, text, -, hproblem, -, -, -, hleft⟩
  · exact Or.inl hkept
  · exact Or.inr hpath
  · exfalso
    rw [hpaths] at hmem
    obtain ⟨rfl, rfl⟩ := Prod.mk.inj (List.mem_singleton.1 hmem)
    cases hleft with
    | missing hright hb hvar =>
      exact hnone ⟨f, _, _, hproblem, hright.verified _ rfl, hb, hvar, rfl⟩

end Host

section Unconstrained

/-- A problem whose clauses say nothing of the second factor and of the product. -/
def unconstrained : String :=
  "c v output:[3]\nc v first input:[1]\nc v second input:[2]\n1 0\n"

theorem exists_prepared_unconstrained :
    ∃ f, (World.alone unconstrained).prepared (Path.ofText "p.cnf")
        (BatchRequest.quiet ["p.cnf"]).useCache = .ok (f, ⟨"", ["p.sol"]⟩, false) ∧
      2 ∉ f.vars ∧ f.layout.second = [2] ∧ ∃ t, f.verify t = true := by
  have hchecked : ((Factorisation.ofText (some "p.cnf")
      (unifyBreaks unconstrained.toList)).2.toOption.any fun f =>
        f.root.clauses.map Clause.vars = [[1]] && f.layout.second = [2] &&
          f.verify (Table.ofList [(1, true)])) = true := by
    decide +kernel
  simp only [Option.any_eq_true, Bool.and_eq_true, decide_eq_true_eq] at hchecked
  obtain ⟨f, hf, ⟨hclauses, hsecond⟩, hverify⟩ := hchecked
  have hproblem := (problem_of_read (World.read_alone unconstrained)).2 (eq_ok_of_toOption hf)
  have hpresent := (World.solution_alone unconstrained).1
  refine ⟨f, ?_, ?_, hsecond, _, hverify⟩
  · show (World.alone unconstrained).prepared (Path.ofText "p.cnf") true = _
    unfold World.prepared
    rw [hproblem, solution_problem]
    simp only [text_solution, hpresent, if_true]
  · intro hmem
    obtain ⟨c, hc, hx⟩ := Restriction.mem_varsOf.1 hmem
    have hvars : c.vars ∈ f.root.clauses.map Clause.vars := List.mem_map_of_mem hc
    rw [hclauses, List.mem_singleton] at hvars
    rw [hvars] at hx
    exact absurd hx (by decide)

/-- However the problem is searched, the bit of the second factor is missing, and the solution
has been written. -/
theorem Processed.eq_of_unconstrained {result : Except Fault ProblemRecord}
    (h : Processed (.quiet ["p.cnf"]) (Path.ofText "p.cnf") (World.alone unconstrained) result w') :
    (∃ b, result = .error (.factor (.missingBit b))) ∧
      ∃ text, entry? w' ["p.sol"] = some (.file (.text text)) := by
  obtain ⟨f, hprepared, hvar, hsecond, t₀, hverify₀⟩ := exists_prepared_unconstrained
  have hsolution : (World.alone unconstrained).Writable (⟨"", ["p.sol"]⟩ : Path).text ["p.sol"] := by
    rw [text_solution]
    exact World.writable_solution _
  cases h with
  | unprepared h => rw [hprepared] at h; cases h
  | unrecorded h => rw [hprepared] at h; cases h
  | recorded h => rw [hprepared] at h; cases h
  | refused _ hr => exact absurd (BatchRequest.complete_quiet _) hr
  | unwritten h _ _ he =>
    have h := h.prepared
    rw [hprepared] at h
    cases h
    rw [write_of_writable hsolution] at he
    cases he
  | unreported _ _ he =>
    cases he with
    | bare hr => exact absurd (BatchRequest.complete_quiet _) hr
    | overflow hv hshown =>
      cases hv
      exact absurd hshown (by decide)
  | @searched f' sol out values w' hsolved hsaved seconds =>
    have h := hsolved.prepared
    rw [hprepared] at h
    cases h
    have hf := readable_of_problem (problem_of_prepared hprepared).1
    have hdecided := hsolved.found.decided rfl rfl
    obtain ⟨t, rfl⟩ : ∃ t, values = some t := by
      cases values with
      | none =>
        have hnone := not_satisfies_of_modelOf hsolved.found hsolved.model hdecided
        exact absurd (Factorisation.satisfies_of_verify hverify₀) (hnone _)
      | some t => exact ⟨t, rfl⟩
    have hmissing : t.get? 2 = none := by
      cases hget : t.get? 2 with
      | none => rfl
      | some b =>
        have hmem := (exists_get?_iff_of_modelOf hf hsolved.found hsolved.model 2).1 ⟨b, hget⟩
        exact absurd hmem hvar
    constructor
    · have hsat : out.verdict.status = .satisfiable :=
        of_decide_eq_true (isSome_of_modelOf hsolved.model).symm
      rcases f.factors_cases t with ⟨b, hb⟩ | ⟨fs, -, -, hnumber, -⟩
      · refine ⟨b, ?_⟩
        rw [conclude, if_pos hsat, hb]
      · rw [hsecond, BitLayout.number, BitLayout.numberFrom, hmissing] at hnumber
        cases hnumber
    · rw [Saved, if_pos ⟨rfl, hdecided⟩, write_of_writable hsolution] at hsaved
      cases hsaved
      exact ⟨_, entry?_put_self hsolution.vacant.below_root _⟩

theorem Gathered.eq_of_unconstrained {result : Except Fault (List ProblemRecord)}
    (h : Gathered "WARNING" (.quiet ["p.cnf"]) (World.alone unconstrained) result w') :
    (∃ message, result = .ok [⟨(Path.ofText "p.cnf").text, .failed message⟩]) ∧
      ∃ text, entry? w' ["p.sol"] = some (.file (.text text)) := by
  rcases h.of_file rfl (World.isDirectory_beside unconstrained "").1 with ⟨u, hlevel, -⟩ | hbatched
  · cases hlevel
  rcases hbatched.of_singleton with ⟨e, hprocessed, he, -⟩ | ⟨record, hsettled, rfl⟩
  · obtain ⟨⟨b, hb⟩, -⟩ := hprocessed.eq_of_unconstrained
    cases hb
    cases he
  · cases hsettled with
    | concluded hprocessed =>
      obtain ⟨⟨b, hb⟩, -⟩ := hprocessed.eq_of_unconstrained
      cases hb
    | failed hprocessed => exact ⟨⟨_, rfl⟩, hprocessed.eq_of_unconstrained.2⟩

theorem exists_completes_unconstrained :
    ∃ message good s', Completes "WARNING" (.quiet ["p.cnf"]) (World.alone unconstrained)
        [⟨(Path.ofText "p.cnf").text, .failed message⟩] good s' ∧
      entry? (World.alone unconstrained) ["p.sol"] = none ∧
      ∃ text, entry? (files s') ["p.sol"] = some (.file (.text text)) := by
  rcases completes_or_fault "WARNING" (.quiet ["p.cnf"]) (World.alone unconstrained) with
    ⟨records, good, s', hcompletes⟩ | ⟨e, s', -, hgathered | ⟨records, w, hgathered, hreported⟩⟩
  · obtain ⟨w, hgathered, hreported⟩ := hcompletes.exists_reported
    obtain ⟨⟨message, hrecords⟩, hentry⟩ := hgathered.eq_of_unconstrained
    cases hrecords
    cases hreported with
    | done hsummary =>
      obtain rfl : files s' = w := hsummary
      exact ⟨message, _, s', hcompletes, rfl, hentry⟩
  · obtain ⟨⟨message, hresult⟩, -⟩ := hgathered.eq_of_unconstrained
    cases hresult
  · cases hreported with
    | unwritten hpath => cases hpath
    | bare _ hbare => cases hbare

/-- The problem fails, and its solution is there all the same. -/
theorem failed_left_solution :
    ∃ message good s', Completes "WARNING" (.quiet ["p.cnf"]) (World.alone unconstrained)
        [⟨(Path.ofText "p.cnf").text, .failed message⟩] good s' ∧
      entry? (files (World.alone unconstrained)) ["p.sol"] = none ∧
      entry? (files s') ["p.sol"] ≠ none := by
  obtain ⟨message, good, s', hcompletes, hbefore, text, hafter⟩ := exists_completes_unconstrained
  refine ⟨message, good, s', hcompletes, hbefore, ?_⟩
  rw [hafter]
  exact Option.some_ne_none _

/-- The bit that is missing accounts for it. -/
theorem verdicts_accounted_unconstrained :
    ∃ message good s' f t b, Completes "WARNING" (.quiet ["p.cnf"]) (World.alone unconstrained)
        [⟨(Path.ofText "p.cnf").text, .failed message⟩] good s' ∧
      (World.alone unconstrained).problem (Path.ofText "p.cnf") = .ok f ∧ f.verify t = true ∧
      f.factors (some t) = .error (.missingBit b) ∧ b.var ∉ f.vars ∧ message = b.message := by
  obtain ⟨message, good, s', hcompletes, hbefore, text, hafter⟩ := exists_completes_unconstrained
  have hexpand : (BatchRequest.quiet ["p.cnf"]).paths.flatMap
      (files (World.alone unconstrained)).expand = [Path.ofText "p.cnf"] := by
    show ["p.cnf"].flatMap (World.alone unconstrained).expand = _
    rw [List.flatMap_singleton, expand, (World.isDirectory_beside unconstrained "").1,
      if_neg Bool.false_ne_true]
  rcases (verdicts_accounted hcompletes).2 _ _ hexpand rfl with
    hkept | ⟨f, t, b, hproblem, hverify, hfactors, hvar, hmessage⟩
  · rcases hkept ["p.sol"] with hentry | ⟨path, hpath, -⟩
    · rw [hafter] at hentry
      rw [show entry? (files (World.alone unconstrained)) ["p.sol"] = none from hbefore] at hentry
      cases hentry
    · cases hpath
  · exact ⟨message, good, s', f, t, b, hcompletes, hproblem, hverify, hfactors, hvar, hmessage⟩

end Unconstrained

end Batch

end FactorSearch
