import FactorSearch.Clause
import Std.Data.HashSet

/-!
What is left of a list of clauses once a literal is true: clauses that hold it
are gone, clauses that hold its negation lose that literal. The list ends at
the first clause that loses its last literal, since nothing after it matters.
Restriction never makes the list longer or heavier, and it makes it lighter
whenever the variable occurs.
-/

namespace FactorSearch.Restriction

/-- The values of a list that have not been seen, each at its first appearance. -/
def firstSeen (seen : Std.HashSet Int) : List Int → List Int
  | [] => []
  | v :: rest =>
    if seen.contains v then firstSeen seen rest else v :: firstSeen (seen.insert v) rest

/-- The variables of the clauses, in order of first appearance. -/
def varsOf (cs : List Clause) : List Int := firstSeen ∅ (cs.flatMap Clause.vars)

theorem firstSeen_eq (seen : Std.HashSet Int) (vs : List Int) :
    firstSeen seen vs = (vs.filter (fun v => !seen.contains v)).eraseDups := by
  induction vs generalizing seen with
  | nil => simp [firstSeen]
  | cons v rest ih =>
    simp only [firstSeen]
    by_cases h : seen.contains v
    · simp [h, ih]
    · simp only [h, Bool.false_eq_true, if_false, ih, List.filter_cons, Bool.not_false, if_true,
        List.eraseDups_cons, List.filter_filter]
      congr 3
      funext x
      rw [Std.HashSet.contains_insert, Bool.not_or, BEq.comm]

theorem firstSeen_empty (vs : List Int) : firstSeen ∅ vs = vs.eraseDups := by
  rw [firstSeen_eq, List.filter_eq_self.2 (by simp)]

theorem varsOf_eq (cs : List Clause) : varsOf cs = (cs.flatMap Clause.vars).eraseDups :=
  firstSeen_empty _

/-- The number of literals in all clauses together. -/
def weight : List Clause → Nat
  | [] => 0
  | c :: rest => c.size + weight rest

def restrict (l : Literal) : List Clause → List Clause
  | [] => []
  | c :: rest =>
    match c.polarity? l.var with
    | none => c :: restrict l rest
    | some p =>
      if p = l.positive then restrict l rest
      else if (c.without l.var).isEmpty then [c.without l.var]
      else c.without l.var :: restrict l rest

theorem length_restrict_le (l : Literal) (cs : List Clause) :
    (restrict l cs).length ≤ cs.length := by
  induction cs with
  | nil => simp [restrict]
  | cons c rest ih =>
    simp only [restrict]
    split
    · simp only [List.length_cons]; omega
    · split
      · simp only [List.length_cons]; omega
      · split <;> simp only [List.length_cons, List.length_nil] <;> omega

/-- A clause that holds the literal is dropped. -/
theorem length_restrict_lt {l : Literal} {cs : List Clause} {c : Clause} (hc : c ∈ cs)
    (hl : l ∈ c.literals) : (restrict l cs).length < cs.length := by
  induction cs with
  | nil => simp at hc
  | cons d rest ih =>
    simp only [restrict]
    rcases List.mem_cons.1 hc with rfl | hrest
    · rw [Clause.polarity?_of_mem hl]
      have := length_restrict_le l rest
      simp only [if_true, List.length_cons]
      omega
    · have := ih hrest
      split
      · simp only [List.length_cons]; omega
      · split
        · simp only [List.length_cons]; omega
        · split
          · have : 0 < rest.length := List.length_pos_of_mem hrest
            simp only [List.length_cons, List.length_nil]
            omega
          · simp only [List.length_cons]; omega

theorem size_without_lt {c : Clause} {v : Int} {p : Bool} (h : c.polarity? v = some p) :
    (c.without v).size < c.size := by
  obtain ⟨l, hl, hv, -⟩ := Clause.mem_of_polarity? h
  exact List.length_filter_lt_length_iff_exists.2 ⟨l, hl, by simp [hv]⟩

theorem weight_restrict_le (l : Literal) (cs : List Clause) :
    weight (restrict l cs) ≤ weight cs := by
  induction cs with
  | nil => simp [restrict]
  | cons c rest ih =>
    simp only [weight, restrict]
    split
    · simp only [weight]; omega
    · rename_i p h
      have := size_without_lt h
      split
      · omega
      · split <;> simp only [weight] <;> omega

theorem weight_restrict_lt {l : Literal} {cs : List Clause}
    (h : l.var ∈ cs.flatMap Clause.vars) : weight (restrict l cs) < weight cs := by
  induction cs with
  | nil => simp at h
  | cons c rest ih =>
    have hle := weight_restrict_le l rest
    simp only [weight, restrict]
    split
    · rename_i hp
      rw [Clause.polarity?_eq_none_iff] at hp
      have := ih (by simpa [hp] using h)
      simp only [weight]
      omega
    · rename_i p hp
      have := size_without_lt hp
      split
      · omega
      · split <;> simp only [weight] <;> omega

theorem mem_varsOf {v : Int} {cs : List Clause} :
    v ∈ varsOf cs ↔ ∃ c ∈ cs, v ∈ c.vars := by
  simp [varsOf_eq, List.mem_flatMap]

end FactorSearch.Restriction
