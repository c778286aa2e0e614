import FactorSearch.Proofs.FileFaults
import FactorSearch.Proofs.Numerals

/-!
Which faults end a batch. A problem that can be read makes a record, which is a failed one if
the problem or its solution is malformed, but for four faults that are not of one problem: a
setting without a value, a number in a recorded solution with too many digits, factors with too
many digits, and a count that is too large for a rate.
-/

namespace FactorSearch

open Text FileHost

namespace Batch

open World

variable {r : BatchRequest} {p sol : Path} {w₀ w w' : World} {f : Factorisation}

/-- Why processing a problem can end the whole batch, by the files that it begins with. -/
inductive Unhandled (r : BatchRequest) (w : World) (p : Path) : Fault → Prop
  | bare (use : BareUse) (h : ¬ r.Complete) : Unhandled r w p (.bare use)
  | tooLong {sol : Path} {text : List Char} {d : ℕ} (huse : r.useCache = true)
      (hsol : p.solution = .ok sol) (hread : w.read sol.text = .ok text) (hd : LongNumeral text d) :
      Unhandled r w p (.solution (.tooLong d))
  | longNumber {f : Factorisation} {o : Operand} (hf : w.problem p = .ok f)
      (hlong : 10 ^ digitLimit ≤ 2 ^ (f.layout.bits o).length) : Unhandled r w p .longNumber
  | statistics {c : CountTooLarge} {v : Int} {negative : Bool} (hv : r.verbosity = .given v)
      (hshown : 1 ≤ v) (h : Binary64.ofInt c.count = .infinite negative) :
      Unhandled r w p (.statistics c)

/-- Nothing ends the batch if all settings have values, no statistics are shown, and no number
is too long. -/
theorem not_unhandled {e : Fault} (hcomplete : r.Complete)
    (hquiet : ∀ v, r.verbosity = .given v → v < 1)
    (hsol : ∀ sol text d, p.solution = .ok sol → w.read sol.text = .ok text → ¬ LongNumeral text d)
    (hbits : ∀ f o, w.problem p = .ok f → 2 ^ (f.layout.bits o).length < 10 ^ digitLimit) :
    ¬ Unhandled r w p e := by
  intro h
  cases h with
  | bare _ hbare => exact hbare hcomplete
  | tooLong _ hp hread hd => exact hsol _ _ _ hp hread hd
  | longNumber hf hlong => exact absurd (hbits _ _ hf) (Nat.not_lt.2 hlong)
  | statistics hv hshown _ =>
    have hlow := hquiet _ hv
    omega

theorem exists_long_of_factorLine {fs : Factors} {e : Fault} (h : factorLine fs = .error e) :
    10 ^ digitLimit ≤ fs.first ∨ 10 ^ digitLimit ≤ fs.second ∨ 10 ^ digitLimit ≤ fs.product := by
  by_contra hshort
  rw [not_or, not_or, Nat.not_le, Nat.not_le, Nat.not_le] at hshort
  obtain ⟨hfirst, hsecond, hproduct⟩ := hshort
  unfold factorLine at h
  rw [integerText?_of_lt (z := fs.first) (by rwa [Int.natAbs_natCast]),
    integerText?_of_lt (z := fs.second) (by rwa [Int.natAbs_natCast]),
    integerText?_of_lt (z := fs.product) (by rwa [Int.natAbs_natCast])] at h
  cases h

/-- Making a record fails for the problem only, unless a number has too many digits. -/
theorem isLocal_or_long_of_conclude {source : RecordSource} {status : Status}
    {values : Option (Table Int Bool)} {e : Fault}
    (hsome : values.isSome = decide (status = .satisfiable))
    (h : conclude f p source status values = .error e) :
    e.isLocal = true ∨
      e = .longNumber ∧ ∃ o, 10 ^ digitLimit ≤ 2 ^ (f.layout.bits o).length := by
  have hcases := concluded f p source status values
  rw [h] at hcases
  cases hcases with
  | unread hstatus he =>
    obtain ⟨t, rfl⟩ := exists_of_isSome hsome hstatus
    rcases f.factors_cases t with ⟨b, hb⟩ | ⟨fs, hfs, -⟩
    · rw [hb] at he
      cases he
      exact Or.inl rfl
    · rw [hfs] at he
      cases he
  | unshown hstatus hfactors hlong =>
    obtain ⟨t, rfl⟩ := exists_of_isSome hsome hstatus
    rcases f.factors_cases t with ⟨b, hb⟩ | ⟨fs, hfs, hfirst, hsecond, hproduct⟩
    · rw [hb] at hfactors
      cases hfactors
    · rw [hfs] at hfactors
      cases hfactors
      refine Or.inr ⟨rfl, ?_⟩
      rcases exists_long_of_factorLine hlong with h | h | h
      · exact ⟨.first, h.trans (BitLayout.number_lt hfirst).le⟩
      · exact ⟨.second, h.trans (BitLayout.number_lt hsecond).le⟩
      · exact ⟨.output, h.trans (BitLayout.number_lt hproduct).le⟩

/-- What ends the processing of a problem concerns the problem only, or ends the batch. -/
theorem Processed.isLocal_or_unhandled {e : Fault} (hk : Kept r.useCache w₀ w)
    (hlegible : w₀.Legible p) (hsol : p.solution = .ok sol) (h : Processed r p w (.error e) w') :
    e.isLocal = true ∨ Unhandled r w₀ p e := by
  obtain ⟨cs, hcs⟩ := hlegible.problem
  have hconclude : ∀ {f source status values}, w.problem p = .ok f →
      values.isSome = decide (status = .satisfiable) →
      conclude f p source status values = .error e → e.isLocal = true ∨ Unhandled r w₀ p e := by
    intro f source status values hproblem hsome he
    rcases isLocal_or_long_of_conclude hsome he with hlocal | ⟨rfl, o, hlong⟩
    · exact Or.inl hlocal
    · exact Or.inr (.longNumber (hk.problem_eq hproblem) hlong)
  generalize hresult : (.error e : Except Fault ProblemRecord) = result at h
  cases h with
  | unprepared he =>
    cases hresult
    obtain ⟨cs', hcs'⟩ := hk.exists_read hcs
    exact Or.inl (isLocal_of_prepared hcs' hsol he)
  | unrecorded hprepared he =>
    cases hresult
    have hsol' := (problem_of_prepared hprepared).2
    rcases hk.isLocal_or_long hlegible hsol' he with hlocal | ⟨text, d, hread, hd, rfl⟩
    · exact Or.inl hlocal
    · exact Or.inr (.tooLong (useCache_of_prepared hprepared) hsol' hread hd)
  | recorded hprepared hvalues =>
    exact hconclude (problem_of_prepared hprepared).1 (isSome_of_recorded hvalues) hresult.symm
  | refused _ hcomplete =>
    cases hresult
    exact Or.inr (.bare _ hcomplete)
  | unwritten hsolved _ _ he =>
    cases hresult
    have hnull := Path.hasNull_solution (problem_of_prepared hsolved.prepared).2 (hasNull_of_read hcs)
    exact Or.inl (isLocal_of_write hnull he)
  | unreported _ _ he =>
    cases hresult
    cases he with
    | bare hcomplete => exact Or.inr (.bare _ hcomplete)
    | overflow hv hshown hinfinite => exact Or.inr (.statistics hv hshown hinfinite)
  | searched hsolved _ _ =>
    exact hconclude (problem_of_prepared hsolved.prepared).1 (isSome_of_modelOf hsolved.model)
      hresult.symm

/-- The text of a problem, or that of its solution if it is to be read, is malformed. -/
inductive Malformed (r : BatchRequest) (w : World) (p : Path) : Prop
  | problem {e : ProblemError} (h : w.problem p = .error (.problem e))
  | solution {sol : Path} {e : SolutionError} (huse : r.useCache = true)
      (hsol : p.solution = .ok sol) (h : w.recorded sol = .error (.solution e))

theorem Gathered.kept {level : String} {result : Except Fault (List ProblemRecord)}
    (h : Gathered level r w result w') : Kept r.useCache w w' := by
  cases h with
  | unknown => exact Kept.refl _ _
  | batched _ h => exact h.kept (Kept.refl _ _)

section Beside

theorem bits_conjunction {f : Factorisation}
    (hf : (Factorisation.ofText (some "p.cnf") (unifyBreaks World.conjunction.toList)).2 = .ok f)
    (o : Operand) : 2 ^ (f.layout.bits o).length < 10 ^ digitLimit := by
  have hlength : (Factorisation.ofText (some "p.cnf")
      (unifyBreaks World.conjunction.toList)).2.toOption.all
        (fun f => Operand.all.all fun o => (f.layout.bits o).length = 1) = true := by
    decide +kernel
  rw [hf] at hlength
  have hone : (f.layout.bits o).length = 1 := by
    have hall := List.all_eq_true.1 hlength o (by cases o <;> decide)
    exact of_decide_eq_true hall
  rw [hone]
  calc 2 ^ 1 < 10 ^ 1 := by decide
    _ ≤ 10 ^ digitLimit := Nat.pow_le_pow_right (by decide) (by decide)

end Beside

section Host

variable {σ : Type} [FileHost σ]

end Host

section Oversized

end Oversized

end Batch

end FactorSearch
