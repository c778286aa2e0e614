import FactorSearch.Proofs.BatchRun

/-!
What a batch keeps of the files that it begins with. Nothing is written while problems are
processed but solutions that a search has found, so what is read is as it was or is such a
solution. If solutions are read at all, none is written over.
-/

namespace FactorSearch

open Text FileHost

namespace World

/-- What is read at a path before and after solutions have been written. -/
inductive Reread (path : String) :
    Except AccessError (List Char) → Except AccessError (List Char) → Prop
  | same (x : Except AccessError (List Char)) : Reread path x x
  | written {x : Except AccessError (List Char)} {values : Option (Table Int Bool)}
      (h : ∀ t, values = some t → SolutionText.Recordable t) :
      Reread path x (.ok (SolutionText.write values).toList)
  | failed (kind kind' : FileErrorKind) : Reread path (fileError kind path) (fileError kind' path)

theorem Reread.trans {path : String} {x y z : Except AccessError (List Char)}
    (h : Reread path x y) (h' : Reread path y z) : Reread path x z := by
  cases h' with
  | same => exact h
  | written hvalues => exact .written hvalues
  | failed kind kind' =>
    cases h with
    | same => exact .failed kind kind'
    | failed kind'' => exact .failed kind'' kind'

/-- What is kept of the files `w₀` when solutions have been written. -/
structure Kept (useCache : Bool) (w₀ w : World) : Prop where
  grows : Grows w₀ w
  reads : ∀ path, Reread path (w₀.read path) (w.read path)
  cached : useCache = true → ∀ path cs, w₀.read path = .ok cs → w.read path = .ok cs

variable {w₀ w w' : World} {useCache : Bool} {p sol : Path} {q : Place} {f : Factorisation}
  {path : String}

theorem Kept.refl (useCache : Bool) (w : World) : Kept useCache w w where
  grows := .refl w
  reads _ := .same _
  cached _ _ _ h := h

theorem Kept.put (hk : Kept useCache w₀ w) (hq : w.Vacant q)
    (hfree : useCache = true → entry? w q = none) {values : Option (Table Int Bool)}
    (hvalues : ∀ t, values = some t → SolutionText.Recordable t) :
    Kept useCache w₀ (w.put q (SolutionText.write values)) where
  grows := hk.grows.trans (grows_put hq _)
  reads path := by
    refine (hk.reads path).trans ?_
    rcases read_put_cases hq (SolutionText.write values) path with h | h | ⟨kind, kind', h, h'⟩
    · rw [h]
      exact .same _
    · rw [h]
      exact .written hvalues
    · rw [h, h']
      exact .failed kind kind'
  cached huse path cs h := read_put_of_read (hfree huse) hq (hk.cached huse path cs h) _

theorem present_of_prepared {cached : Bool} (h : w.prepared p true = .ok (f, sol, cached)) :
    w.present sol.text = .ok cached := by
  unfold prepared at h
  split at h
  · cases h
  · cases h
  · rw [if_pos rfl] at h
    split at h
    · cases h
    · rename_i hpresent
      cases h
      exact hpresent

theorem entry?_of_present (h : w.present path = .ok false) (hq : w.Leads path q) :
    entry? w q = none := by
  obtain ⟨hnull, l, hl, rfl⟩ := hq
  unfold present at h
  rw [hnull, hl] at h
  cases l with
  | found place e => cases h
  | free place => exact (holds_of_locate hl).2

end World

namespace Batch

open World

variable {r : BatchRequest} {p sol : Path} {w₀ w w' : World} {f : Factorisation}

theorem Solved.kept {out : Search.Outcome} {values : Option (Table Int Bool)}
    (h : Solved r p w f sol out values) (hk : Kept r.useCache w₀ w)
    (hsaved : Saved r sol out.verdict.status values w w') : Kept r.useCache w₀ w' := by
  have hf := readable_of_problem (problem_of_prepared h.prepared).1
  unfold Saved at hsaved
  split at hsaved
  · obtain ⟨q, hq, rfl⟩ := exists_writable_of_write hsaved
    refine hk.put hq.vacant (fun huse => ?_) ?_
    · have hprepared := h.prepared
      rw [huse] at hprepared
      exact entry?_of_present (present_of_prepared hprepared) hq.leads
    · rintro t rfl
      exact (verify_of_modelOf hf h.found h.model).2
  · rw [hsaved]
    exact hk

/-- One problem. -/
theorem Processed.kept {result : Except Fault ProblemRecord} (h : Processed r p w result w')
    (hk : Kept r.useCache w₀ w) : Kept r.useCache w₀ w' := by
  cases h with
  | unprepared => exact hk
  | unrecorded => exact hk
  | recorded => exact hk
  | refused => exact hk
  | unwritten => exact hk
  | unreported hsolved hsaved => exact hsolved.kept hk hsaved
  | searched hsolved hsaved => exact hsolved.kept hk hsaved

theorem Settled.kept {record : ProblemRecord} (h : Settled r p w record w')
    (hk : Kept r.useCache w₀ w) : Kept r.useCache w₀ w' := by
  cases h with
  | concluded h => exact h.kept hk
  | failed h => exact h.kept hk

/-- The problems of a batch, one after another. -/
theorem Batched.kept {ps : List Path} {result : Except Fault (List ProblemRecord)}
    (h : Batched r w ps result w') (hk : Kept r.useCache w₀ w) : Kept r.useCache w₀ w' := by
  induction h with
  | done => exact hk
  | escaped h => exact h.kept hk
  | settled h _ ih => exact ih (h.kept hk)

end Batch

end FactorSearch
