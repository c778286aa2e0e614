import FactorSearch.Tally
import FactorSearch.UnitPropagation

/-!
Pure literals: a literal whose negation occurs nowhere can be made true without
loss. One round fixes all literals that are pure at its start, in order of first
appearance; rounds repeat until no literal is pure. Every round drops a clause.
-/

namespace FactorSearch.PureLiterals

open Restriction

def occurs (cs : List Clause) (v : Int) (positive : Bool) : Bool :=
  cs.any (fun c => c.polarity? v == some positive)

/-- The literal on a variable that occurs so often with either sign, if it occurs
with one sign only. -/
def literalOf? (v : Int) (counts : Nat × Nat) : Option Literal :=
  if h : 0 < v then
    match decide (0 < counts.2), decide (0 < counts.1) with
    | true, false => some ⟨v, true, h⟩
    | false, true => some ⟨v, false, h⟩
    | _, _ => none
  else none

/-- The literal on a variable if the variable occurs with one sign only. -/
def pureOn? (cs : List Clause) (v : Int) : Option Literal :=
  literalOf? v ((Tally.ofClauses cs).count v)

def pureLiterals (cs : List Clause) : List Literal :=
  let counts := Tally.ofClauses cs
  (varsOf cs).filterMap (fun v => literalOf? v (counts.count v))

theorem occurs_eq (cs : List Clause) (v : Int) (positive : Bool) :
    occurs cs v positive = decide (0 < occurrences cs v positive) := by
  rw [Bool.eq_iff_iff, decide_eq_true_eq, occurrences, List.countP_pos_iff]
  simp [occurs]

theorem pureOn?_eq (cs : List Clause) (v : Int) :
    pureOn? cs v =
      if h : 0 < v then
        match occurs cs v true, occurs cs v false with
        | true, false => some ⟨v, true, h⟩
        | false, true => some ⟨v, false, h⟩
        | _, _ => none
      else none := by
  simp only [pureOn?, literalOf?, Tally.count_ofClauses, occurs_eq]

theorem pureLiterals_eq (cs : List Clause) :
    pureLiterals cs = (varsOf cs).filterMap (pureOn? cs) := rfl

theorem pureOn?_occurs {cs : List Clause} {v : Int} {l : Literal} (h : pureOn? cs v = some l) :
    occurs cs l.var l.positive = true := by
  rw [pureOn?_eq] at h
  split at h
  · split at h
    · cases h; assumption
    · cases h; assumption
    · simp at h
  · simp at h

theorem exists_clause_of_occurs {cs : List Clause} {l : Literal}
    (h : occurs cs l.var l.positive = true) : ∃ c ∈ cs, l ∈ c.literals := by
  simp only [occurs, List.any_eq_true, beq_iff_eq] at h
  obtain ⟨c, hc, hp⟩ := h
  obtain ⟨m, hm, hv, hpos⟩ := Clause.mem_of_polarity? hp
  refine ⟨c, hc, ?_⟩
  have : m = l := by
    obtain ⟨mv, mp, mh⟩ := m
    obtain ⟨lv, lp, lh⟩ := l
    simp only at hv hpos
    subst hv hpos
    rfl
  exact this ▸ hm

theorem exists_clause_of_pure (cs : List Clause) (l : Literal) (h : l ∈ pureLiterals cs) :
    ∃ c ∈ cs, l ∈ c.literals := by
  rw [pureLiterals_eq] at h
  obtain ⟨v, -, hv⟩ := List.mem_filterMap.1 h
  exact exists_clause_of_occurs (pureOn?_occurs hv)

def fixAll (n : Node) (ls : List Literal) : Node := ls.foldl Node.child n

theorem length_fixAll_le (ls : List Literal) (n : Node) :
    (fixAll n ls).clauses.length ≤ n.clauses.length := by
  induction ls generalizing n with
  | nil => exact Nat.le_refl _
  | cons l rest ih => exact Nat.le_trans (ih (n.child l)) (length_restrict_le l n.clauses)

theorem length_fixAll_lt {n : Node} {l : Literal} {rest : List Literal}
    (h : pureLiterals n.clauses = l :: rest) :
    (fixAll n (l :: rest)).clauses.length < n.clauses.length := by
  obtain ⟨c, hc, hl⟩ := exists_clause_of_pure n.clauses l (by simp [h])
  exact Nat.lt_of_le_of_lt (length_fixAll_le rest (n.child l)) (length_restrict_lt hc hl)

def eliminate (n : Node) : Reduction :=
  if n.contradiction then ⟨n, 0⟩
  else
    match _h : pureLiterals n.clauses with
    | [] => ⟨n, 0⟩
    | l :: rest =>
      let r := eliminate (fixAll n (l :: rest))
      ⟨r.node, r.count + (l :: rest).length⟩
termination_by n.clauses.length
decreasing_by exact length_fixAll_lt _h

theorem weight_fixAll_le (ls : List Literal) (n : Node) :
    weight (fixAll n ls).clauses ≤ weight n.clauses := by
  induction ls generalizing n with
  | nil => exact Nat.le_refl _
  | cons l rest ih => exact Nat.le_trans (ih (n.child l)) (weight_restrict_le l n.clauses)

theorem weight_eliminate_le (n : Node) :
    weight (eliminate n).node.clauses ≤ weight n.clauses := by
  fun_induction eliminate n with
  | case1 n h => exact Nat.le_refl _
  | case2 n h hp => exact Nat.le_refl _
  | case3 n h l rest hp r ih => exact Nat.le_trans ih (weight_fixAll_le (l :: rest) n)

end FactorSearch.PureLiterals
