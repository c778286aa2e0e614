import FactorSearch.Proofs.ReadClauses
import FactorSearch.Proofs.Residual
import Mathlib.Data.List.Forall2
import Mathlib.Data.List.Induction
import Mathlib.Data.List.ReduceOption

/-!
Roots of what is given for them. Integers as they are written stand for the clause that is left
of them. If they have all cancelled they stand for none, but no integers at all stand for the
empty clause, which cannot be satisfied, and so does an empty clause. Of clauses that hold the
same literals a root keeps the first one, in the order of its literals, so no assignment tells
the root from all that was given, and the clauses of a root make the same root once more.
-/

namespace FactorSearch

namespace Clause

/-- The clauses that are the same as no clause before them. -/
def firstOccurrences (cs : List Clause) : List Clause :=
  (cs.zipIdx.filter fun e => (cs.take e.2).all fun d => !d.same e.1).map Prod.fst

variable {cs : List Clause} {c : Clause}

/-- One more clause is kept if none before it is the same. -/
theorem distinct_concat (cs : List Clause) (c : Clause) :
    distinct (cs ++ [c]) = distinct cs ++ if cs.any (fun d => d.same c) then [] else [c] := by
  induction cs with
  | nil => rfl
  | cons d rest ih =>
    rw [List.cons_append, distinct, ih, List.filter_append, distinct, List.cons_append,
      List.any_cons]
    cases hd : d.same c with
    | true =>
      cases rest.any fun d => d.same c <;> simp [hd]
    | false =>
      cases rest.any fun d => d.same c <;> simp [hd]

theorem firstOccurrences_concat (cs : List Clause) (c : Clause) :
    firstOccurrences (cs ++ [c]) =
      firstOccurrences cs ++ if cs.any (fun d => d.same c) then [] else [c] := by
  have hbefore : (cs.zipIdx.filter fun e => ((cs ++ [c]).take e.2).all fun d => !d.same e.1) =
      cs.zipIdx.filter fun e => (cs.take e.2).all fun d => !d.same e.1 := by
    apply List.filter_congr
    intro e he
    obtain ⟨-, hlt, -⟩ := List.mem_zipIdx he
    rw [List.take_append_of_le_length (by omega)]
  rw [firstOccurrences, List.zipIdx_append, List.filter_append, hbefore, List.map_append,
    ← firstOccurrences]
  congr 1
  -- the new clause has all others before it
  cases hany : cs.any fun d => d.same c with
  | true => simp_all
  | false => simp_all

theorem distinct_eq_firstOccurrences (cs : List Clause) : distinct cs = firstOccurrences cs := by
  induction cs using List.reverseRecOn with
  | nil => rfl
  | append_singleton cs c ih => rw [distinct_concat, firstOccurrences_concat, ih]

theorem distinct_eq_self (h : cs.Pairwise fun c d => c.same d = false) : distinct cs = cs := by
  induction cs with
  | nil => rfl
  | cons c rest ih =>
    rw [List.pairwise_cons] at h
    obtain ⟨hc, hrest⟩ := h
    rw [distinct, ih hrest, List.filter_eq_self.2]
    intro d hd
    rw [hc d hd]
    rfl

/-- What depends on the literals of a clause alone is not lost with the repetitions. -/
theorem forall_mem_distinct_iff {P : Clause → Prop}
    (hP : ∀ c d : Clause, (∀ l, l ∈ c.literals ↔ l ∈ d.literals) → P c → P d) :
    (∀ c ∈ distinct cs, P c) ↔ ∀ c ∈ cs, P c := by
  constructor
  · intro h c hc
    obtain ⟨d, hd, hsame⟩ := exists_mem_distinct hc
    exact hP d c hsame (h d hd)
  · exact fun h c hc => h c (distinct_subset cs hc)

end Clause

theorem Signs.satisfies_distinct (s : Signs) (cs : List Clause) :
    (∀ c ∈ Clause.distinct cs, s.satisfies c = true) ↔ ∀ c ∈ cs, s.satisfies c = true := by
  apply Clause.forall_mem_distinct_iff
  intro c d hsame hc
  obtain ⟨l, hl, htrue⟩ := List.any_eq_true.1 hc
  exact List.any_eq_true.2 ⟨l, (hsame l).1 hl, htrue⟩

/-- What a root is given: integers as they are written, or a clause. -/
inductive RootInput where
  | integers (ns : List Int)
  | finished (c : Clause)

namespace RootInput

/-- The literals that the integers stand for; zero stands for none. -/
def source : RootInput → Except LiteralError ClauseSource
  | .integers ns => .written <$> ns.mapM Literal.ofInt
  | .finished c => .ok (.finished c)

/-- Nothing is there from the start, so nothing has cancelled. -/
def IsEmpty : RootInput → Prop
  | .integers ns => ns = []
  | .finished c => c.isEmpty = true

/-- The clause that an input contributes to the root, or that it contributes none. -/
inductive Contributes : RootInput → Option Clause → Prop
  | none_written : Contributes (.integers []) (some Clause.empty)
  | all_cancelled {ns : List Int} {c : Clause} (hne : ns ≠ []) (hc : Clause.ofInts ns = .ok c)
      (hempty : c.isEmpty = true) : Contributes (.integers ns) none
  | some_left {ns : List Int} {c : Clause} (hc : Clause.ofInts ns = .ok c)
      (hleft : c.isEmpty = false) : Contributes (.integers ns) (some c)
  | as_given (c : Clause) : Contributes (.finished c) (some c)

variable {input : RootInput} {inputs : List RootInput} {contribution : Option Clause}
  {contributions : List (Option Clause)} {s : ClauseSource} {e : LiteralError} {ns : List Int}

theorem source_integers_eq_ok (h : (integers ns).source = .ok s) :
    ∃ ls, ns.mapM Literal.ofInt = .ok ls ∧ s = .written ls := by
  rw [source] at h
  cases hls : ns.mapM Literal.ofInt with
  | error e =>
    rw [hls] at h
    cases h
  | ok ls =>
    rw [hls] at h
    cases h
    exact ⟨ls, rfl, rfl⟩

theorem zero_notMem_of_source (h : (integers ns).source = .ok s) : 0 ∉ ns := by
  intro hzero
  obtain ⟨ls, hls, -⟩ := source_integers_eq_ok h
  obtain ⟨l, -, hl⟩ := ProblemText.exists_ok_of_mapM hls hzero
  cases hl

/-- Only zero is refused. -/
theorem source_eq_error (h : input.source = .error e) :
    e = .zero ∧ ∃ ns, input = .integers ns ∧ 0 ∈ ns := by
  cases input with
  | finished c => cases h
  | integers ns =>
    rw [source] at h
    cases hls : ns.mapM Literal.ofInt with
    | ok ls =>
      rw [hls] at h
      cases h
    | error e' =>
      rw [hls] at h
      cases h
      obtain ⟨before, n, after, rfl, hn, -⟩ := Text.exists_of_mapM_eq_error hls
      by_cases hzero : n = 0
      · subst hzero
        cases hn
        exact ⟨rfl, _, rfl, List.mem_append_right _ List.mem_cons_self⟩
      · rw [Literal.ofInt, dif_neg hzero] at hn
        cases hn

theorem contributes_of_source (h : input.source = .ok s) : input.Contributes s.clause? := by
  cases input with
  | finished c =>
    cases h
    exact Contributes.as_given c
  | integers ns =>
    obtain ⟨ls, hls, rfl⟩ := source_integers_eq_ok h
    have hc : Clause.ofInts ns = .ok (Clause.ofLiterals ls) := by
      rw [Clause.ofInts, hls]
      rfl
    by_cases hne : ns = []
    · subst hne
      cases hls
      exact Contributes.none_written
    · have hlength : ls ≠ [] := by
        rintro rfl
        exact hne (List.map_eq_nil_iff.1 (Text.mapM_eq_ok_iff.1 hls))
      have hwritten : ls.isEmpty = false := List.isEmpty_eq_false_iff.2 hlength
      rw [ClauseSource.clause?, hwritten, Bool.not_false, Bool.true_and]
      cases hempty : (Clause.ofLiterals ls).isEmpty with
      | true => exact Contributes.all_cancelled hne hc hempty
      | false => exact Contributes.some_left hc hempty

/-- No input contributes an empty clause but one that is empty from the start. -/
theorem Contributes.isEmpty_iff (h : input.Contributes contribution) :
    (∃ c, contribution = some c ∧ c.isEmpty = true) ↔ input.IsEmpty := by
  cases h with
  | none_written => exact ⟨fun _ => rfl, fun _ => ⟨Clause.empty, rfl, rfl⟩⟩
  | all_cancelled hne => simp [IsEmpty, hne]
  | some_left hc hleft =>
    constructor
    · intro hempty
      obtain ⟨d, hd, htrue⟩ := hempty
      rw [← Option.some.inj hd, hleft] at htrue
      cases htrue
    · intro hnone
      cases hnone
      cases hc
      cases hleft
  | as_given c => simp [IsEmpty]

theorem exists_isEmpty_iff (h : List.Forall₂ Contributes inputs contributions) :
    (∃ c ∈ contributions.reduceOption, c.isEmpty = true) ↔ ∃ input ∈ inputs, input.IsEmpty := by
  simp only [List.reduceOption_mem_iff]
  induction h with
  | nil => simp
  | cons hfirst _ ih =>
    rw [List.exists_mem_cons_iff, ← ih, ← hfirst.isEmpty_iff, ← exists_or]
    simp only [List.mem_cons, or_and_right, eq_comm]

theorem forall₂_contributes {sources : List ClauseSource} (h : inputs.mapM source = .ok sources) :
    List.Forall₂ Contributes inputs (sources.map ClauseSource.clause?) := by
  have hsources : List.Forall₂ (fun input s => source input = .ok s) inputs sources := by
    have hmap : List.Forall₂ (· = ·) (inputs.map source) (sources.map .ok) := by
      rw [List.forall₂_eq_eq_eq]
      exact Text.mapM_eq_ok_iff.1 h
    rw [List.forall₂_map_left_iff, List.forall₂_map_right_iff] at hmap
    exact hmap
  rw [List.forall₂_map_right_iff]
  exact hsources.imp fun _ _ => contributes_of_source

end RootInput

namespace Node

open Clause

/-- The root of the inputs, unless a zero is among their integers. -/
def ofInputs (inputs : List RootInput) : Except LiteralError Node :=
  ofSources <$> inputs.mapM RootInput.source

theorem ofClauses_distinct (cs : List Clause) : ofClauses (distinct cs) = ofClauses cs := by
  have hdistinct : distinct (distinct cs) = distinct cs := distinct_eq_self (distinct_pairwise cs)
  simp only [ofClauses, hdistinct]

theorem ofInputs_finished (cs : List Clause) :
    ofInputs (cs.map .finished) = .ok (ofClauses cs) := by
  have hsources : (cs.map RootInput.finished).mapM RootInput.source =
      .ok (cs.map ClauseSource.finished) := by
    rw [Text.mapM_eq_ok_iff, List.map_map, List.map_map]
    rfl
  have hclauses : (cs.map ClauseSource.finished).filterMap ClauseSource.clause? = cs := by
    rw [List.filterMap_map]
    exact List.filterMap_some
  rw [ofInputs, hsources]
  change Except.ok (ofSources _) = _
  rw [ofSources, hclauses]

theorem contradiction_ofClauses (cs : List Clause) :
    (ofClauses cs).contradiction = true ↔ ∃ c ∈ cs, c.isEmpty = true := by
  have hsame : ∀ c d : Clause, (∀ l, l ∈ c.literals ↔ l ∈ d.literals) →
      ¬ c.isEmpty = true → ¬ d.isEmpty = true := by
    intro c d hcd
    rw [Bool.not_eq_true, Bool.not_eq_true, isEmpty_eq_false_iff, isEmpty_eq_false_iff]
    rintro ⟨l, hl⟩
    exact ⟨l, (hcd l).1 hl⟩
  have hnone : (∀ c ∈ distinct cs, ¬ c.isEmpty = true) ↔ ∀ c ∈ cs, ¬ c.isEmpty = true :=
    forall_mem_distinct_iff hsame
  rw [contradiction, List.any_eq_true, ← not_iff_not]
  simp only [not_exists, not_and]
  exact hnone

/-- Inputs without a zero make a root. Its clauses are the first occurrences of those that the
inputs contribute, no two of them hold the same literals, and the assignments that satisfy them
are those that satisfy all that was contributed, whether they are total or not. The root is
contradictory exactly if an input was empty from the start, not if its literals have cancelled,
and its clauses make the same root again. -/
theorem ofInputs_first_occurrences (inputs : List RootInput) :
    (ofInputs inputs = .error .zero ∧ ∃ ns, .integers ns ∈ inputs ∧ 0 ∈ ns) ∨
    ∃ root contributions, ofInputs inputs = .ok root ∧
      (∀ ns, .integers ns ∈ inputs → 0 ∉ ns) ∧
      List.Forall₂ RootInput.Contributes inputs contributions ∧
      root.clauses = firstOccurrences contributions.reduceOption ∧
      (root.clauses.Pairwise fun c d => ¬ ∀ l, l ∈ c.literals ↔ l ∈ d.literals) ∧
      (∀ v : Valuation, v.Satisfies root.clauses ↔ v.Satisfies contributions.reduceOption) ∧
      (∀ s : Signs, (∀ c ∈ root.clauses, s.satisfies c = true) ↔
        ∀ c ∈ contributions.reduceOption, s.satisfies c = true) ∧
      (root.contradiction = true ↔ ∃ input ∈ inputs, input.IsEmpty) ∧
      ofInputs (root.clauses.map .finished) = .ok root := by
  cases hsources : inputs.mapM RootInput.source with
  | error e =>
    left
    obtain ⟨before, input, after, rfl, hinput, -⟩ := Text.exists_of_mapM_eq_error hsources
    obtain ⟨rfl, ns, rfl, hzero⟩ := RootInput.source_eq_error hinput
    rw [ofInputs, hsources]
    exact ⟨rfl, ns, List.mem_append_right _ List.mem_cons_self, hzero⟩
  | ok sources =>
    right
    have hcontributes := RootInput.forall₂_contributes hsources
    have hbuilt : sources.filterMap ClauseSource.clause? =
        (sources.map ClauseSource.clause?).reduceOption := by
      rw [List.reduceOption, List.filterMap_map]
      rfl
    refine ⟨ofClauses (sources.map ClauseSource.clause?).reduceOption, _, ?_, ?_, hcontributes,
      distinct_eq_firstOccurrences _, ?_, fun _ => Valuation.satisfies_distinct,
      fun s => s.satisfies_distinct _, ?_, ?_⟩
    · rw [ofInputs, hsources, ← hbuilt]
      rfl
    · intro ns hns
      obtain ⟨s, -, hs⟩ := ProblemText.exists_ok_of_mapM hsources hns
      exact RootInput.zero_notMem_of_source hs
    · apply (distinct_pairwise _).imp
      intro c d hdiffers hsame
      rw [(same_iff c d).2 hsame] at hdiffers
      cases hdiffers
    · rw [contradiction_ofClauses, RootInput.exists_isEmpty_iff hcontributes]
    · rw [ofInputs_finished]
      exact congrArg Except.ok (ofClauses_distinct _)

/-- Literals that cancel leave no clause, and the first order of equal literals is kept. -/
example : (ofInputs [.integers [1, -2], .integers [3, -3], .integers [-2, 1]]).toOption.map
    (fun root => root.clauses.map fun c => c.literals.map Literal.toInt) = some [[1, -2]] := by
  decide

end Node

end FactorSearch
