import FactorSearch.Clause
import Std.Data.HashMap

/-!
How many clauses hold a variable with either sign. One pass over the clauses
counts all variables at once, and the count of each is the number of clauses that
hold it with that sign, since a clause holds no variable twice.
-/

namespace FactorSearch

/-- The number of clauses that hold a variable with a sign. -/
def occurrences (cs : List Clause) (v : Int) (positive : Bool) : Nat :=
  cs.countP (fun c => c.polarity? v == some positive)

theorem occurrences_add (cs : List Clause) (v : Int) :
    occurrences cs v false + occurrences cs v true = cs.countP (fun c => c.contains v) := by
  induction cs with
  | nil => rfl
  | cons c rest ih =>
    simp only [occurrences, Clause.contains, List.countP_cons] at ih ⊢
    cases c.polarity? v with
    | none => simpa using ih
    | some p => cases p <;> simp <;> omega

/-- The counts of each variable, negated first. -/
abbrev Tally := Std.HashMap Int (Nat × Nat)

namespace Tally

def count (t : Tally) (v : Int) : Nat × Nat := t.getD v (0, 0)

def add (t : Tally) (l : Literal) : Tally :=
  let (n, p) := t.count l.var
  t.insert l.var (if l.positive then (n, p + 1) else (n + 1, p))

def ofClauses (cs : List Clause) : Tally :=
  cs.foldl (fun t c => c.literals.foldl add t) ∅

def literalCount (ls : List Literal) (v : Int) (positive : Bool) : Nat :=
  ls.countP (fun l => l.var == v && l.positive == positive)

theorem count_add (t : Tally) (l : Literal) (v : Int) :
    (t.add l).count v = ((t.count v).1 + literalCount [l] v false,
      (t.count v).2 + literalCount [l] v true) := by
  simp only [add, count, Std.HashMap.getD_insert, literalCount, List.countP_singleton]
  by_cases h : l.var = v
  · subst h
    cases hp : l.positive <;> simp
  · simp [h]

theorem count_foldl_add (ls : List Literal) (t : Tally) (v : Int) :
    (ls.foldl add t).count v = ((t.count v).1 + literalCount ls v false,
      (t.count v).2 + literalCount ls v true) := by
  induction ls generalizing t with
  | nil => simp [literalCount]
  | cons l rest ih =>
    rw [List.foldl_cons, ih, count_add]
    simp only [literalCount, List.countP_cons, List.countP_nil, Prod.mk.injEq]
    omega

theorem literalCount_eq_zero {ls : List Literal} {v : Int} (h : v ∉ ls.map Literal.var)
    (positive : Bool) : literalCount ls v positive = 0 := by
  simp only [literalCount, List.countP_eq_zero, Bool.and_eq_true, beq_iff_eq, not_and]
  intro l hl hv
  exact absurd (hv ▸ List.mem_map_of_mem hl) h

theorem literalCount_literals (c : Clause) (v : Int) (positive : Bool) :
    literalCount c.literals v positive = if c.polarity? v == some positive then 1 else 0 := by
  obtain ⟨ls, hnd⟩ := c
  simp only [Clause.polarity?]
  induction ls with
  | nil => simp [literalCount]
  | cons l rest ih =>
    simp only [List.map_cons, List.nodup_cons] at hnd
    by_cases h : l.var = v
    · have hrest := literalCount_eq_zero (h ▸ hnd.1) positive
      simp only [literalCount] at hrest
      simp [literalCount, List.countP_cons, hrest, h]
    · have hrest := ih hnd.2
      simp only [literalCount] at hrest
      simp [literalCount, hrest, h]

theorem count_foldl (cs : List Clause) (t : Tally) (v : Int) :
    (cs.foldl (fun t c => c.literals.foldl add t) t).count v =
      ((t.count v).1 + occurrences cs v false, (t.count v).2 + occurrences cs v true) := by
  induction cs generalizing t with
  | nil => simp [occurrences]
  | cons c rest ih =>
    rw [List.foldl_cons, ih, count_foldl_add, literalCount_literals, literalCount_literals]
    simp only [occurrences, List.countP_cons, Prod.mk.injEq]
    omega

/-- The tally holds the occurrences of every variable. -/
theorem count_ofClauses (cs : List Clause) (v : Int) :
    (ofClauses cs).count v = (occurrences cs v false, occurrences cs v true) := by
  have h : count ∅ v = (0, 0) := by simp [count]
  rw [ofClauses, count_foldl, h, Nat.zero_add, Nat.zero_add]

end Tally

end FactorSearch
