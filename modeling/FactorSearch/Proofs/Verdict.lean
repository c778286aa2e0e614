import FactorSearch.Proofs.Assignment
import FactorSearch.Proofs.Trace

/-!
The verdicts of a search are never wrong, whatever the heuristic, the budgets and the
watch. A model lies below the start of the search and leaves no clause, so each clause
of the start holds a fixed literal. When the search ends without a model, each branch
of its worklist has been refuted: a satisfying valuation of a split node satisfies one
of its two branches, and simplification keeps satisfiability.
-/

namespace FactorSearch

open Restriction PureLiterals Search

namespace Search

theorem exists_descends_entered (o : Options) (f : Frame) :
    ∃ fixed, f.enter.Descends (entered o f).node fixed := by
  obtain ⟨fixed, hfixed, -⟩ := exists_descends_simplify o.pureLiterals f.enter
  exact ⟨fixed, hfixed⟩

namespace Trace

variable {stops : Prop} {o : Options} {start : ℕ} {ctx : Context} {frames : List Frame}
  {bs : List Branching} {out : Outcome}

/-- A model lies below one of the branches and has no clause left. -/
theorem exists_descends_model (h : Trace stops o start ctx frames bs out) {m : Node}
    (hm : out.verdict = .satisfiable m) :
    ∃ f ∈ frames, ∃ fixed, f.enter.Descends m fixed ∧ m.clauses = [] := by
  induction h with
  | finished ctx => simp at hm
  | stopped ctx f rest h => simp at hm
  | conflict hc h ih =>
    obtain ⟨g, hg, hbelow⟩ := ih hm
    exact ⟨g, List.mem_cons_of_mem _ hg, hbelow⟩
  | model ctx f rest hc hs =>
    obtain ⟨fixed, hfixed⟩ := exists_descends_entered o f
    simp only [Verdict.satisfiable.injEq] at hm
    subst hm
    exact ⟨f, List.mem_cons_self, fixed, hfixed, List.isEmpty_iff.1 hs⟩
  | exhausted ctx f rest hc hs hb => simp at hm
  | @split ctx f rest bs out l hc hs hb hp hv hpos h ih =>
    obtain ⟨g, hg, fixed, hfixed, hm⟩ := ih hm
    obtain ⟨above, habove⟩ := exists_descends_entered o f
    rcases List.mem_cons.1 hg with rfl | hg
    · have hchild : (entered o f).node.Descends _ [l.negate] := Node.Descends.child hv
      exact ⟨f, List.mem_cons_self, _, (habove.trans hchild).trans hfixed, hm⟩
    rcases List.mem_cons.1 hg with rfl | hg
    · have hchild : (entered o f).node.Descends _ [l] := Node.Descends.child hv
      exact ⟨f, List.mem_cons_self, _, (habove.trans hchild).trans hfixed, hm⟩
    · exact ⟨g, List.mem_cons_of_mem _ hg, fixed, hfixed, hm⟩

/-- A search that starts at a node finds a model by fixing a literal of each of its clauses. -/
theorem exists_fixed {n m : Node} (h : Trace stops o start ctx [⟨n, none⟩] bs out)
    (hm : out.verdict = .satisfiable m) :
    ∃ fixed, n.Descends m fixed ∧ ∀ c ∈ n.clauses, ∃ l ∈ fixed, l ∈ c.literals := by
  obtain ⟨f, hf, fixed, hfixed, hempty⟩ := h.exists_descends_model hm
  rw [List.mem_singleton] at hf
  subst hf
  exact ⟨fixed, hfixed, fun c hc => hfixed.exists_fixed_mem hempty hc⟩

/-- A run that ends without a model has refuted every branch. -/
theorem not_satisfiable (h : Trace stops o start ctx frames bs out)
    (hout : out.verdict = .unsatisfiable) :
    ∀ f ∈ frames, ¬ ∃ v : Valuation, v.Satisfies f.enter.clauses := by
  induction h with
  | finished ctx => exact fun f hf => absurd hf List.not_mem_nil
  | stopped ctx f rest h => simp at hout
  | @conflict ctx f rest bs out hc h ih =>
    rw [List.forall_mem_cons]
    refine ⟨fun hv => ?_, ih hout⟩
    obtain ⟨w, hw⟩ := exists_satisfies_simplify o.pureLiterals _ hv
    exact Valuation.not_satisfies_of_contradiction hc hw
  | model ctx f rest hc hs => simp at hout
  | exhausted ctx f rest hc hs hb => simp at hout
  | @split ctx f rest bs out l hc hs hb hp hv hpos h ih =>
    have hbranches := ih hout
    rw [List.forall_mem_cons, List.forall_mem_cons] at hbranches
    obtain ⟨hlow, hhigh, hrest⟩ := hbranches
    rw [List.forall_mem_cons]
    refine ⟨fun hv => ?_, hrest⟩
    obtain ⟨w, hw⟩ := exists_satisfies_simplify o.pureLiterals _ hv
    rcases Valuation.exists_satisfies_child (l := l) hw with hw | hw
    · exact hlow ⟨w, hw⟩
    · exact hhigh ⟨w, hw⟩

end Trace

end Search

/-- Completed with false, the path of a model gives every clause of a problem a literal
that the assignment makes true. -/
theorem Factorisation.verify_complete {f : Factorisation} {m : Node} {fixed : List Literal}
    {values : Table Int Bool} (h : f.root.Descends m fixed)
    (hfixed : ∀ c ∈ f.root.clauses, ∃ l ∈ fixed, l ∈ c.literals)
    (hvalues : m.assignmentMap = .ok values) : f.verify (f.complete values) = true := by
  rw [f.verify_iff]
  intro c hc
  obtain ⟨l, hl, hlc⟩ := hfixed c hc
  have hmem : l ∈ m.assignments := by
    rw [h.assignments_eq]
    exact List.mem_append_right _ hl
  refine ⟨l, hlc, ?_⟩
  rw [f.get?_complete, Node.get?_assignmentMap hvalues hmem, Option.some_or]

/-- An assignment that passes the check is a valuation of the problem. -/
theorem Factorisation.satisfies_of_verify {f : Factorisation} {t : Table Int Bool}
    (h : f.verify t = true) : (Valuation.ofTable t).Satisfies f.root.clauses := by
  intro c hc
  obtain ⟨l, hl, hvalue⟩ := (f.verify_iff t).1 h c hc
  apply Valuation.clause_of_mem hl
  unfold Valuation.literal Valuation.ofTable
  rw [hvalue]
  exact beq_self_eq_true l.positive

/-- The start of a problem fixes nothing yet, so what lies below it has an assignment. -/
theorem Node.Descends.exists_assignmentMap {n m : Node} {fixed : List Literal}
    (h : n.Descends m fixed) (hn : n.path = []) : ∃ values, m.assignmentMap = .ok values := by
  rw [h.assignmentMap_isOk_iff, Node.assignmentMap_isOk_iff, Node.assignments, hn]
  exact List.nodup_nil

/-- A model is reached by fixing variables of the start, one sign each, such that every
clause of the start holds a fixed literal; its path is an assignment unless that of the
start is none, and at the root of a problem the completed assignment passes the check.
If there is no model by verdict, no valuation satisfies the start. -/
theorem solve_verdict_sound {σ : Type} (watch : Watch (StateM σ)) (o : Options) (n : Node)
    (ctx : Context) (s : σ) :
    (∀ m, ((solve watch o n ctx).run s).1.verdict = .satisfiable m →
      ∃ fixed, n.Descends m fixed ∧
        (∀ c ∈ n.clauses, ∃ l ∈ fixed, l ∈ c.literals) ∧
        (∀ v : Valuation, (∀ l ∈ fixed, v.literal l = true) → v.Satisfies n.clauses) ∧
        ((∃ values, m.assignmentMap = .ok values) ↔ ∃ values, n.assignmentMap = .ok values) ∧
        ∀ f : Factorisation, f.root = n → n.path = [] →
          ∃ values, m.assignmentMap = .ok values ∧ f.verify (f.complete values) = true) ∧
    (((solve watch o n ctx).run s).1.verdict = .unsatisfiable →
      ∀ v : Valuation, ¬ v.Satisfies n.clauses) := by
  obtain ⟨bs, htrace⟩ := exists_trace_run watch o ctx.decisions ctx [⟨n, none⟩] s
  constructor
  · intro m hm
    obtain ⟨fixed, hfixed, hclauses⟩ := htrace.exists_fixed hm
    refine ⟨fixed, hfixed, hclauses, ?_, hfixed.assignmentMap_isOk_iff, ?_⟩
    · intro v hv c hc
      obtain ⟨l, hl, hlc⟩ := hclauses c hc
      exact Valuation.clause_of_mem hlc (hv l hl)
    · rintro f rfl hpath
      obtain ⟨values, hvalues⟩ := hfixed.exists_assignmentMap hpath
      exact ⟨values, hvalues, Factorisation.verify_complete hfixed hclauses hvalues⟩
  · intro hout v hv
    exact htrace.not_satisfiable hout _ List.mem_cons_self ⟨v, hv⟩

end FactorSearch
