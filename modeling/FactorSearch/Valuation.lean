import FactorSearch.Restriction
import FactorSearch.Table

/-!
Truth. A valuation gives every variable a value, and clauses are satisfied when
each of them has a true literal. A valuation that makes a literal true satisfies
a list of clauses exactly when it satisfies what restriction leaves of the list.
-/

namespace FactorSearch

open Restriction

abbrev Valuation := Int → Bool

namespace Valuation

def literal (v : Valuation) (l : Literal) : Bool := v l.var == l.positive

def clause (v : Valuation) (c : Clause) : Bool := c.literals.any v.literal

def Satisfies (v : Valuation) (cs : List Clause) : Prop := ∀ c ∈ cs, v.clause c = true

/-- The valuation of a table; a variable without value is false. -/
def ofTable (t : Table Int Bool) : Valuation := fun x => (t.get? x).getD false

theorem literal_negate (v : Valuation) (l : Literal) :
    v.literal l.negate = !v.literal l := by
  unfold literal
  rw [Literal.negate_var, Literal.negate_positive]
  cases v l.var <;> cases l.positive <;> rfl

theorem clause_of_mem {v : Valuation} {c : Clause} {l : Literal} (hl : l ∈ c.literals)
    (h : v.literal l = true) : v.clause c = true :=
  List.any_eq_true.2 ⟨l, hl, h⟩

theorem clause_empty {v : Valuation} {c : Clause} (h : c.isEmpty = true) :
    v.clause c = false := by
  simp only [Clause.isEmpty, List.isEmpty_iff] at h
  simp [clause, h]

/-- A literal whose variable has the other value does not help its clause. -/
theorem clause_without {v : Valuation} {c : Clause} {x : Int} {p : Bool}
    (hp : c.polarity? x = some p) (h : v x ≠ p) : v.clause (c.without x) = v.clause c := by
  rw [Bool.eq_iff_iff]
  simp only [clause, List.any_eq_true, Clause.without, List.mem_filter, bne_iff_ne]
  constructor
  · rintro ⟨l, ⟨hl, -⟩, ht⟩
    exact ⟨l, hl, ht⟩
  · rintro ⟨l, hl, ht⟩
    refine ⟨l, ⟨hl, ?_⟩, ht⟩
    intro hx
    subst hx
    have := Clause.polarity?_of_mem hl
    rw [hp] at this
    simp only [literal, beq_iff_eq] at ht
    exact h (ht.trans (Option.some.inj this).symm)

theorem satisfies_cons {v : Valuation} {c : Clause} {cs : List Clause} :
    v.Satisfies (c :: cs) ↔ v.clause c = true ∧ v.Satisfies cs :=
  List.forall_mem_cons

theorem satisfies_restrict_iff {v : Valuation} {l : Literal} (h : v.literal l = true)
    (cs : List Clause) : v.Satisfies (restrict l cs) ↔ v.Satisfies cs := by
  have hl : v l.var = l.positive := by simpa [literal] using h
  induction cs with
  | nil => exact Iff.rfl
  | cons c rest ih =>
    simp only [restrict]
    split
    · simp only [satisfies_cons, ih]
    · rename_i p hp
      split
      · rename_i hpos
        obtain ⟨m, hm, hv, hmp⟩ := Clause.mem_of_polarity? hp
        have hc : v.clause c = true :=
          clause_of_mem hm (by simp [literal, hv, hmp, hl, hpos])
        simp only [satisfies_cons, ih, hc, true_and]
      · rename_i hpos
        have hw := clause_without hp (fun e => hpos (e.symm.trans hl))
        split
        · rename_i hempty
          have hfalse : v.clause c = false := hw ▸ clause_empty hempty
          simp [satisfies_cons, hw, hfalse]
        · simp only [satisfies_cons, hw, ih]

end Valuation

end FactorSearch
