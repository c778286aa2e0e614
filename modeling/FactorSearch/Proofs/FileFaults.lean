import FactorSearch.Proofs.KeptFiles
import FactorSearch.Proofs.SolutionPlace
import Mathlib.Tactic.Ring

/-!
What can be wrong with the files of one problem while a batch is processed. A path that can be
read is not refused later, a problem is as it was in the beginning, and a recorded solution
fails for the problem only, unless a number in it has too many digits.
-/

namespace FactorSearch

open Text FileHost

namespace BitLayout

variable {values : Table Int Bool}

theorem numberFrom_lt {high n : ℕ} {vars : List Int} (h : numberFrom values high vars = .ok n) :
    n < (high + 1) * 2 ^ vars.length := by
  induction vars generalizing high with
  | nil =>
    cases h
    rw [List.length_nil, Nat.pow_zero, Nat.mul_one]
    exact Nat.lt_succ_self _
  | cons v rest ih =>
    unfold numberFrom at h
    split at h
    · cases h
    · rename_i b _
      have hbit : (if b then 1 else 0) ≤ 1 := by split <;> omega
      calc n < (2 * high + (if b then 1 else 0) + 1) * 2 ^ rest.length := ih h
        _ ≤ (2 * (high + 1)) * 2 ^ rest.length := Nat.mul_le_mul_right _ (by omega)
        _ = (high + 1) * 2 ^ (rest.length + 1) := by ring

theorem number_lt {n : ℕ} {vars : List Int} (h : number values vars = .ok n) : n < 2 ^ vars.length := by
  have hlt := numberFrom_lt h
  rwa [Nat.zero_add, Nat.one_mul] at hlt

end BitLayout

namespace Factorisation

/-- Reading factors from an assignment reads three numbers, or fails at a bit without a value. -/
theorem factors_cases (f : Factorisation) (t : Table Int Bool) :
    (∃ b, f.factors (some t) = .error (.missingBit b)) ∨
      ∃ fs, f.factors (some t) = .ok fs ∧ BitLayout.number t f.layout.first = .ok fs.first ∧
        BitLayout.number t f.layout.second = .ok fs.second ∧
        BitLayout.number t f.layout.output = .ok fs.product := by
  have hsome : (some t <|> f.solution) = some t := rfl
  unfold factors
  simp only [hsome]
  cases hfirst : BitLayout.number t f.layout.first with
  | error b => exact Or.inl ⟨b, rfl⟩
  | ok first =>
    cases hsecond : BitLayout.number t f.layout.second with
    | error b => exact Or.inl ⟨b, rfl⟩
    | ok second =>
      cases hproduct : BitLayout.number t f.layout.output with
      | error b => exact Or.inl ⟨b, rfl⟩
      | ok product => exact Or.inr ⟨⟨first, second, product⟩, rfl, rfl, rfl, rfl⟩

end Factorisation

namespace SolutionText

theorem exists_long_of_assign {source : Option String} {t : Table Int Bool} {ns : List Numeral} {d : ℕ}
    (h : assign source t ns = .error (.tooLong d)) :
    ∃ n ∈ ns, digitLimit < n.digits.length ∧ n.digits.length = d := by
  fun_induction assign source t ns with
  | case1 => cases h
  | case2 t n rest hlong =>
    cases h
    exact ⟨n, List.mem_cons_self, hlong, rfl⟩
  | case3 t n rest =>
    rename_i ih
    obtain ⟨m, hm, hlong⟩ := ih h
    exact ⟨m, List.mem_cons_of_mem _ hm, hlong⟩
  | case4 => cases h
  | case5 t n rest =>
    rename_i ih
    obtain ⟨m, hm, hlong⟩ := ih h
    exact ⟨m, List.mem_cons_of_mem _ hm, hlong⟩

theorem exists_long_of_parse {source : Option String} {text : List Char} {d : ℕ}
    (h : parse source text = .error (.tooLong d)) :
    ∃ n ∈ numerals text, digitLimit < n.digits.length ∧ n.digits.length = d := by
  unfold parse at h
  split at h
  · cases hassign : assign source Table.empty (numerals text) with
    | ok t => rw [hassign] at h; cases h
    | error e =>
      rw [hassign] at h
      cases h
      exact exists_long_of_assign hassign
  · cases h

end SolutionText

namespace World

variable {w₀ w : World} {p sol : Path} {f : Factorisation} {useCache : Bool} {path text : String}
  {cs : List Char}

/-- The file of a problem can be read, and what is recorded beside it is text if it is there. -/
structure Legible (w : World) (p : Path) : Prop where
  problem : ∃ text, w.read p.text = .ok text
  solution : ∀ sol e, p.solution = .ok sol → w.read sol.text ≠ .error (.encoding e)

theorem hasNull_of_read (h : w.read path = .ok cs) : hasNull path = false := by
  obtain ⟨p, c, hleads, -⟩ := exists_leads_of_read h
  exact hleads.1

theorem isLocal_of_read {e : AccessError} (hnull : hasNull path = false)
    (hencoding : ∀ e', w.read path ≠ .error (.encoding e')) (h : w.read path = .error e) :
    (Fault.access e).isLocal = true := by
  unfold read at h hencoding
  rw [hnull] at h hencoding
  rw [if_neg Bool.false_ne_true] at h hencoding
  split at h
  · cases h
  · rename_i e' hlocate
    rw [hlocate] at hencoding
    exact absurd rfl (hencoding e')
  all_goals
    cases h
    rfl

theorem isLocal_of_present {e : AccessError} (h : w.present path = .error e) :
    (Fault.access e).isLocal = true := by
  unfold present at h
  split at h
  · cases h
  split at h
  all_goals cases h
  rfl

theorem isLocal_of_write {e : AccessError} (hnull : hasNull path = false)
    (h : w.write path text = .error e) : (Fault.access e).isLocal = true := by
  unfold write at h
  rw [hnull, if_neg Bool.false_ne_true] at h
  simp only at h
  split at h
  · cases h
    rfl
  · cases h
    rfl
  · split at h
    all_goals cases h
    rfl
  · split at h
    all_goals cases h
    rfl

theorem useCache_of_prepared (h : w.prepared p useCache = .ok (f, sol, true)) : useCache = true := by
  unfold prepared at h
  split at h
  · cases h
  · cases h
  · split at h
    · rename_i huse
      exact huse
    · cases h

theorem exists_problem_of_error {e : Fault} (hread : w.read p.text = .ok cs)
    (h : w.problem p = .error e) : ∃ e', e = .problem e' := by
  unfold problem at h
  rw [hread] at h
  simp only at h
  cases hread : (Factorisation.ofText (some p.text) (unifyBreaks cs)).2 with
  | ok f =>
    rw [hread] at h
    cases h
  | error e' =>
    rw [hread] at h
    cases h
    exact ⟨e', rfl⟩

/-- What is wrong with a problem that can be read before its solution is looked at. -/
theorem isLocal_of_prepared {e : Fault} (hread : w.read p.text = .ok cs)
    (hsol : p.solution = .ok sol) (h : w.prepared p useCache = .error e) : e.isLocal = true := by
  unfold prepared at h
  rw [hsol] at h
  cases hproblem : w.problem p with
  | error e' =>
    rw [hproblem] at h
    cases h
    obtain ⟨e'', rfl⟩ := exists_problem_of_error hread hproblem
    rfl
  | ok f =>
    rw [hproblem] at h
    simp only at h
    split at h
    · split at h
      · rename_i hpresent
        cases h
        exact isLocal_of_present hpresent
      · cases h
    · cases h

/-- A solution that has been written is no problem. -/
theorem exists_problem_error_of_written {values : Option (Table Int Bool)}
    (hread : w.read p.text = .ok (SolutionText.write values).toList) :
    ∃ e, w.problem p = .error e := by
  obtain ⟨e, he⟩ := SolutionText.exists_problem_error values (some p.text)
  unfold problem
  rw [hread]
  simp only [SolutionText.unifyBreaks_write, Factorisation.ofText, he]
  exact ⟨_, rfl⟩

/-- A problem that can be read was there in the beginning. -/
theorem Kept.problem_eq (hk : Kept useCache w₀ w) (h : w.problem p = .ok f) : w₀.problem p = .ok f := by
  have hreads := hk.reads p.text
  generalize hbefore : w₀.read p.text = before at hreads
  generalize hafter : w.read p.text = after at hreads
  cases hreads with
  | same =>
    unfold problem at h ⊢
    rwa [hbefore, ← hafter]
  | written =>
    obtain ⟨e, he⟩ := exists_problem_error_of_written hafter
    rw [h] at he
    cases he
  | failed =>
    unfold problem at h
    rw [hafter] at h
    cases h

theorem Kept.exists_read (hk : Kept useCache w₀ w) (h : w₀.read path = .ok cs) :
    ∃ cs', w.read path = .ok cs' := by
  have hreads := hk.reads path
  rw [h] at hreads
  generalize w.read path = after at hreads ⊢
  cases hreads with
  | same => exact ⟨cs, rfl⟩
  | written => exact ⟨_, rfl⟩

theorem exists_recorded_of_written {values : Option (Table Int Bool)}
    (hvalues : ∀ t, values = some t → SolutionText.Recordable t)
    (hread : w.read sol.text = .ok (SolutionText.write values).toList) :
    ∃ x, w.recorded sol = .ok x := by
  rw [recorded_of_read hread]
  cases values with
  | none => exact ⟨_, verdictOf_ok (SolutionText.parse_write_none _)⟩
  | some t =>
    obtain ⟨u, hu, -⟩ := SolutionText.exists_parse_write (hvalues t rfl) (some sol.text)
    rw [← SolutionText.unifyBreaks_write] at hu
    exact ⟨_, verdictOf_ok hu⟩

/-- A number in the text has too many digits. -/
def LongNumeral (text : List Char) (digits : ℕ) : Prop :=
  ∃ n ∈ SolutionText.numerals (unifyBreaks text), n.digits.length = digits ∧ digitLimit < digits

/-- What is wrong with a recorded solution concerns one problem only, unless a number in it has
too many digits. -/
theorem isLocal_or_long (hlegible : w.Legible p) (hsol : p.solution = .ok sol) {e : Fault}
    (h : w.recorded sol = .error e) :
    e.isLocal = true ∨
      ∃ text d, w.read sol.text = .ok text ∧ LongNumeral text d ∧ e = .solution (.tooLong d) := by
  cases hread : w.read sol.text with
  | error a =>
    unfold recorded at h
    rw [hread] at h
    cases h
    obtain ⟨cs, hcs⟩ := hlegible.problem
    have hnull := Path.hasNull_solution hsol (hasNull_of_read hcs)
    exact Or.inl (isLocal_of_read hnull (fun e => hlegible.solution sol e hsol) hread)
  | ok text =>
    rw [recorded_of_read hread] at h
    cases hparse : SolutionText.parse (some sol.text) (unifyBreaks text) with
    | ok values =>
      rw [verdictOf_ok hparse] at h
      cases h
    | error e' =>
      rw [verdictOf_error hparse] at h
      cases h
      cases e' with
      | bothWays v source => exact Or.inl rfl
      | tooLong d =>
        obtain ⟨n, hn, hlong, rfl⟩ := SolutionText.exists_long_of_parse hparse
        exact Or.inr ⟨text, _, rfl, ⟨n, hn, rfl, hlong⟩, rfl⟩

/-- The same while problems are processed: what has been written can be read. -/
theorem Kept.isLocal_or_long (hk : Kept useCache w₀ w) (hlegible : w₀.Legible p)
    (hsol : p.solution = .ok sol) {e : Fault} (h : w.recorded sol = .error e) :
    e.isLocal = true ∨
      ∃ text d, w₀.read sol.text = .ok text ∧ LongNumeral text d ∧ e = .solution (.tooLong d) := by
  have hreads := hk.reads sol.text
  generalize hbefore : w₀.read sol.text = before at hreads
  generalize hafter : w.read sol.text = after at hreads
  cases hreads with
  | same =>
    rw [← hbefore]
    apply World.isLocal_or_long hlegible hsol
    rw [← h]
    unfold recorded
    rw [hbefore, hafter]
  | written hvalues =>
    obtain ⟨x, hx⟩ := exists_recorded_of_written hvalues hafter
    rw [h] at hx
    cases hx
  | failed =>
    unfold recorded at h
    rw [hafter] at h
    cases h
    exact Or.inl rfl

end World

end FactorSearch
