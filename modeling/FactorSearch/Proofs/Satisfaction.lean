import FactorSearch.Proofs.Descent
import FactorSearch.Valuation

/-!
What simplification does to satisfaction. A valuation that makes the fixed literals
true satisfies the clauses of both ends of a descent alike. A unit clause forces its
literal, so unit propagation keeps every satisfying valuation. Pure literals are not
forced: a satisfying valuation may have to change on their variables, but then it
satisfies what is left. If nothing is left at all, then each clause of the upper node
holds a fixed literal. Repeated clauses of a root say nothing more.
-/

namespace FactorSearch

open Restriction PureLiterals UnitPropagation

namespace Clause

theorem distinct_subset (cs : List Clause) : distinct cs ⊆ cs := by
  induction cs with
  | nil => exact List.Subset.refl _
  | cons c rest ih =>
    intro d hd
    rw [distinct] at hd
    rcases List.mem_cons.1 hd with rfl | hd
    · exact List.mem_cons_self
    · exact List.mem_cons_of_mem _ (ih (List.mem_filter.1 hd).1)

/-- Each clause is kept, perhaps in another order of its literals. -/
theorem exists_mem_distinct {cs : List Clause} {c : Clause} (h : c ∈ cs) :
    ∃ d ∈ distinct cs, ∀ l, l ∈ d.literals ↔ l ∈ c.literals := by
  induction cs with
  | nil => exact absurd h List.not_mem_nil
  | cons b rest ih =>
    rw [distinct]
    rcases List.mem_cons.1 h with rfl | h
    · exact ⟨c, List.mem_cons_self, fun _ => Iff.rfl⟩
    · obtain ⟨d, hd, hsame⟩ := ih h
      cases hb : b.same d with
      | true =>
        refine ⟨b, List.mem_cons_self, fun l => ?_⟩
        rw [← hsame l]
        exact (same_iff b d).1 hb l
      | false =>
        refine ⟨d, List.mem_cons_of_mem _ (List.mem_filter.2 ⟨hd, ?_⟩), hsame⟩
        rw [hb]
        rfl

end Clause

theorem Valuation.satisfies_distinct {v : Valuation} {cs : List Clause} :
    v.Satisfies (Clause.distinct cs) ↔ v.Satisfies cs := by
  constructor
  · intro h c hc
    obtain ⟨d, hd, hsame⟩ := Clause.exists_mem_distinct hc
    obtain ⟨l, hl, htrue⟩ := List.any_eq_true.1 (h d hd)
    exact Valuation.clause_of_mem ((hsame l).1 hl) htrue
  · exact fun h c hc => h c (Clause.distinct_subset cs hc)

namespace Valuation

instance (v : Valuation) (cs : List Clause) : Decidable (v.Satisfies cs) :=
  inferInstanceAs (Decidable (∀ c ∈ cs, v.clause c = true))

/-- The valuation changed so that the given literals are true. -/
def override (v : Valuation) (ls : List Literal) : Valuation := fun x =>
  ((ls.find? (fun l => l.var == x)).map Literal.positive).getD (v x)

theorem literal_override_of_mem (v : Valuation) {ls : List Literal} {l : Literal}
    (hnd : (ls.map Literal.var).Nodup) (hl : l ∈ ls) : (v.override ls).literal l = true := by
  have hp := Clause.polarity?_of_mem (c := ⟨ls, hnd⟩) hl
  unfold Clause.polarity? at hp
  simp only [literal, override, hp, Option.getD_some, beq_self_eq_true]

theorem override_of_notMem (v : Valuation) {ls : List Literal} {x : Int}
    (hx : x ∉ ls.map Literal.var) : v.override ls x = v x := by
  have hnone : ls.find? (fun l => l.var == x) = none := by
    rw [List.find?_eq_none]
    intro l hl hv
    exact hx (List.mem_map.2 ⟨l, hl, by simpa using hv⟩)
  simp only [override, hnone, Option.map_none, Option.getD_none]

theorem satisfies_fixAll_iff {v : Valuation} (n : Node) {ls : List Literal}
    (h : ∀ l ∈ ls, v.literal l = true) :
    v.Satisfies (fixAll n ls).clauses ↔ v.Satisfies n.clauses := by
  induction ls generalizing n with
  | nil => exact Iff.rfl
  | cons l rest ih =>
    have hl := h l List.mem_cons_self
    have hrest := fun m hm => h m (List.mem_cons_of_mem l hm)
    exact (ih (n.child l) hrest).trans (satisfies_restrict_iff hl n.clauses)

/-- The valuation that makes every literal of a clause false. -/
def refuting (c : Clause) : Valuation := fun x => !(c.polarity? x).getD false

theorem literal_refuting {c : Clause} {l : Literal} (hl : l ∈ c.literals) :
    (refuting c).literal l = false := by
  simp only [literal, refuting, Clause.polarity?_of_mem hl, Option.getD_some]
  cases l.positive <;> rfl

theorem exists_satisfies_child {v : Valuation} {n : Node} {l : Literal}
    (h : v.Satisfies n.clauses) :
    v.Satisfies (n.child l.negate).clauses ∨ v.Satisfies (n.child l).clauses := by
  cases hl : v.literal l with
  | true => exact Or.inr ((satisfies_restrict_iff hl n.clauses).2 h)
  | false =>
    have hneg : v.literal l.negate = true := by rw [literal_negate, hl]; rfl
    exact Or.inl ((satisfies_restrict_iff hneg n.clauses).2 h)

theorem not_satisfies_of_contradiction {v : Valuation} {n : Node} (h : n.contradiction = true) :
    ¬ v.Satisfies n.clauses := by
  intro hv
  obtain ⟨c, hc, hempty⟩ := List.any_eq_true.1 h
  have hfalse := clause_empty (v := v) hempty
  rw [hv c hc] at hfalse
  exact absurd hfalse (by decide)

end Valuation

/-- The root of clauses written as integers; zeros do not count. -/
def Node.ofInts (lists : List (List Int)) : Node :=
  ofSources (lists.map fun ns => .written (ns.filterMap fun n => (Literal.ofInt n).toOption))

open FactorSearch.Valuation

namespace Node.Descends

variable {n m : Node} {fixed : List Literal}

theorem satisfies_iff (h : n.Descends m fixed) {v : Valuation}
    (hv : ∀ l ∈ fixed, v.literal l = true) :
    v.Satisfies m.clauses ↔ v.Satisfies n.clauses := by
  rw [h.reached]
  exact satisfies_fixAll_iff n hv

/-- If no clause is left, every clause has lost itself to one of the fixed literals:
otherwise refuting the clause wherever nothing is fixed would satisfy it. -/
theorem exists_fixed_mem (h : n.Descends m fixed) (hm : m.clauses = []) {c : Clause}
    (hc : c ∈ n.clauses) : ∃ l ∈ fixed, l ∈ c.literals := by
  have hv : ∀ l ∈ fixed, ((refuting c).override fixed).literal l = true :=
    fun l hl => literal_override_of_mem _ h.distinct hl
  have hsat : ((refuting c).override fixed).Satisfies n.clauses := by
    rw [← h.satisfies_iff hv, hm]
    exact fun d hd => absurd hd List.not_mem_nil
  obtain ⟨l, hl, htrue⟩ := List.any_eq_true.1 (hsat c hc)
  by_cases hvar : l.var ∈ fixed.map Literal.var
  · obtain ⟨f, hf, hfl⟩ := List.mem_map.1 hvar
    have hftrue := hv f hf
    simp only [literal, beq_iff_eq] at htrue hftrue
    have hsame : f = l := by
      ext
      · exact hfl
      · rw [← hftrue, hfl, htrue]
    exact ⟨f, hf, hsame ▸ hl⟩
  · have hfalse := literal_refuting hl
    simp only [literal, override_of_notMem _ hvar] at htrue hfalse
    rw [htrue] at hfalse
    exact absurd hfalse (by decide)

end Node.Descends

namespace UnitPropagation

/-- The literal of a unit clause is true in every satisfying valuation. -/
theorem literal_of_forced {v : Valuation} {n : Node} {l : Literal} (h : forced? n = some l)
    (hv : v.Satisfies n.clauses) : v.literal l = true := by
  obtain ⟨c, hc, hl⟩ := forced?_mem h
  have hclause := hv c hc
  simpa [Valuation.clause, hl] using hclause

theorem satisfies_propagate {v : Valuation} (n : Node) (hv : v.Satisfies n.clauses) :
    v.Satisfies (propagate n).node.clauses := by
  fun_induction propagate n with
  | case1 n h => exact hv
  | case2 n l h r ih =>
    exact ih ((satisfies_restrict_iff (literal_of_forced h hv) n.clauses).2 hv)

end UnitPropagation

namespace PureLiterals

theorem pureOn?_not_occurs {cs : List Clause} {v : Int} {l : Literal}
    (h : pureOn? cs v = some l) : occurs cs l.var (!l.positive) = false := by
  rw [pureOn?_eq] at h
  split at h
  · split at h
    · cases h; assumption
    · cases h; assumption
    · simp at h
  · simp at h

/-- No clause holds the negation of a pure literal. -/
theorem eq_of_pure {cs : List Clause} {l m : Literal} {c : Clause} (hl : l ∈ pureLiterals cs)
    (hc : c ∈ cs) (hm : m ∈ c.literals) (hvar : m.var = l.var) : m = l := by
  rw [pureLiterals_eq] at hl
  obtain ⟨v, -, hv⟩ := List.mem_filterMap.1 hl
  have hnot := pureOn?_not_occurs hv
  simp only [occurs, List.any_eq_false, beq_iff_eq] at hnot
  have hne := hnot c hc
  rw [← hvar, Clause.polarity?_of_mem hm, Option.some.injEq] at hne
  ext
  · exact hvar
  · cases hp : m.positive <;> cases hq : l.positive <;> simp_all

/-- Making the pure literals of a round true spoils no clause. -/
theorem satisfies_override_pure {v : Valuation} {cs : List Clause} (hv : v.Satisfies cs) :
    (v.override (pureLiterals cs)).Satisfies cs := by
  intro c hc
  obtain ⟨m, hm, htrue⟩ := List.any_eq_true.1 (hv c hc)
  apply clause_of_mem hm
  have hnodup := (nodup_varsOf cs).sublist (map_var_pureLiterals_sublist cs)
  by_cases hvar : m.var ∈ (pureLiterals cs).map Literal.var
  · obtain ⟨l, hl, hlm⟩ := List.mem_map.1 hvar
    rw [eq_of_pure hl hc hm hlm.symm]
    exact literal_override_of_mem v hnodup hl
  · simpa only [literal, override_of_notMem v hvar] using htrue

theorem exists_satisfies_eliminate (n : Node)
    (h : ∃ v : Valuation, v.Satisfies n.clauses) :
    ∃ v : Valuation, v.Satisfies (eliminate n).node.clauses := by
  fun_induction eliminate n with
  | case1 n hc => exact h
  | case2 n hc hp => exact h
  | case3 n hc l rest hp r ih =>
    obtain ⟨v, hv⟩ := h
    have hround := descends_round n
    have hover := satisfies_override_pure hv
    rw [hp] at hround hover
    have htrue : ∀ m ∈ l :: rest, (v.override (l :: rest)).literal m = true :=
      fun m hm => literal_override_of_mem v hround.distinct hm
    exact ih ⟨_, (satisfies_fixAll_iff n htrue).2 hover⟩

end PureLiterals

namespace Search

theorem exists_satisfies_simplify (pure : Bool) (n : Node)
    (h : ∃ v : Valuation, v.Satisfies n.clauses) :
    ∃ v : Valuation, v.Satisfies (simplify pure n).node.clauses := by
  obtain ⟨v, hv⟩ := h
  have hforced := satisfies_propagate n hv
  simp only [simplify]
  split
  · exact exists_satisfies_eliminate _ ⟨v, hforced⟩
  · exact ⟨v, hforced⟩

end Search

end FactorSearch
