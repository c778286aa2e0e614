import FactorSearch.Proofs.FirstMaximum
import Mathlib.Data.List.Basic

/-!
What the weighted heuristic picks. Only the occurrences in the shortest clauses count, how many
there are and how evenly the two signs share them. Some variable occurs there, and it outscores
those that do not, however early these appear. The score packs the number of occurrences and
the balance into one number; as long as the balance stays below the weight of an occurrence,
the number of occurrences decides, and the balance decides only between equals.
-/

namespace FactorSearch

open Restriction

namespace Clause

theorem contains_eq_true_iff {c : Clause} {v : Int} : c.contains v = true ↔ v ∈ c.vars := by
  rw [contains, Option.isSome_iff_ne_none, ne_eq, polarity?_eq_none_iff, not_not]

end Clause

namespace Heuristic

/-- The clauses than which none is shorter. -/
def least (cs : List Clause) : List Clause := cs.filter fun c => cs.all fun d => c.size ≤ d.size

def negated (cs : List Clause) (x : Int) : ℕ := occurrences (least cs) x false

def plain (cs : List Clause) (x : Int) : ℕ := occurrences (least cs) x true

variable {cs : List Clause} {v x : Int}

theorem shortest_eq (cs : List Clause) : shortest cs = least cs := by
  unfold shortest least
  apply List.filter_congr
  intro c hc
  rw [Bool.eq_iff_iff, beq_iff_eq, List.min?_eq_some_iff, List.all_eq_true, List.forall_mem_map]
  simp only [decide_eq_true_eq, and_iff_right_iff_imp]
  exact fun _ => List.mem_map_of_mem hc

theorem exists_mem_least (h : cs ≠ []) : ∃ c, c ∈ least cs := by
  have hsome : (cs.map Clause.size).min?.isSome := by
    rw [Option.isSome_iff_ne_none, ne_eq, List.min?_eq_none_iff, List.map_eq_nil_iff]
    exact h
  obtain ⟨size, hsize⟩ := Option.isSome_iff_exists.1 hsome
  obtain ⟨c, hc, rfl⟩ := List.mem_map.1 (List.min?_eq_some_iff.1 hsize).1
  refine ⟨c, ?_⟩
  rw [← shortest_eq, shortest, List.mem_filter, hsize]
  exact ⟨hc, beq_self_eq_true _⟩

/-- The variables that count are those of the shortest clauses. -/
theorem occurrences_pos_iff :
    0 < negated cs x + plain cs x ↔ ∃ c ∈ least cs, x ∈ c.vars := by
  rw [negated, plain, occurrences_add, List.countP_pos_iff]
  simp only [Clause.contains_eq_true_iff]

theorem weight_shortest (cs : List Clause) (x : Int) :
    weight (shortest cs) x =
      65536 * (negated cs x + plain cs x) + negated cs x * plain cs x := by
  rw [shortest_eq]
  rfl

theorem firstMax_of_pickWeighted (h : pickWeighted cs = some v) :
    FirstMax (fun x => (weight (shortest cs) x : Int)) (cs.flatMap Clause.vars) v := by
  rw [pickWeighted_eq, firstMax_map, Option.map_map] at h
  apply FirstMax.of_varsOf
  simpa [Function.comp_def] using h

/-- A packed score compares the occurrences first, while the balance is below their weight. -/
theorem score_lexicographic {n p n' p' : ℕ} (hbalance : n' * p' < 65536)
    (h : score n p ≤ score n' p') : n + p ≤ n' + p' ∧ (n + p = n' + p' → n * p ≤ n' * p') := by
  unfold score at h
  constructor
  · omega
  · intro heq
    rw [heq] at h
    omega

/-- On clauses of which none is empty the weighted heuristic picks a variable of a shortest one,
the first in the row of all literals whose score no variable exceeds. If the balance of its
signs is less than an occurrence weighs, no variable has more occurrences in the shortest
clauses, and none with as many is more evenly balanced. -/
theorem pick_weighted_greatest (table : Activity) (hne : cs ≠ [])
    (hfull : ∀ c ∈ cs, c.isEmpty = false) :
    ∃ v, weighted.pick table cs = .ok (some v) ∧ (∃ c ∈ least cs, v ∈ c.vars) ∧
      FirstMax (fun x => ((65536 * (negated cs x + plain cs x) + negated cs x * plain cs x : ℕ) : Int))
        (cs.flatMap Clause.vars) v ∧
      (negated cs v * plain cs v < 65536 → ∀ x ∈ varsOf cs,
        negated cs x + plain cs x ≤ negated cs v + plain cs v ∧
        (negated cs x + plain cs x = negated cs v + plain cs v →
          negated cs x * plain cs x ≤ negated cs v * plain cs v)) := by
  obtain ⟨v, hpick, -⟩ := exists_pick .weighted table hne hfull
  have hpicked : pickWeighted cs = some v := by simpa [pick, hne] using hpick
  have hmax := firstMax_of_pickWeighted hpicked
  have hle : ∀ x ∈ varsOf cs, weight (shortest cs) x ≤ weight (shortest cs) v := by
    intro x hx
    have hmem : x ∈ cs.flatMap Clause.vars := List.mem_flatMap.2 (mem_varsOf.1 hx)
    exact Int.ofNat_le.1 (hmax.le hmem)
  simp only [weight_shortest] at hmax hle
  refine ⟨v, hpick, ?_, hmax, fun hbalance x hx => score_lexicographic hbalance (hle x hx)⟩
  obtain ⟨c, hc⟩ := exists_mem_least hne
  have hmem : c ∈ cs := List.mem_of_mem_filter hc
  obtain ⟨l, hl⟩ := Clause.isEmpty_eq_false_iff.1 (hfull c hmem)
  have hvar : l.var ∈ c.vars := List.mem_map_of_mem hl
  have hcounts : 0 < negated cs l.var + plain cs l.var := occurrences_pos_iff.2 ⟨c, hc, hvar⟩
  have hbeats := hle l.var (mem_varsOf.2 ⟨c, hmem, hvar⟩)
  rw [← occurrences_pos_iff]
  -- a variable that does not count scores nothing
  by_contra hzero
  obtain ⟨hn, hp⟩ := Nat.add_eq_zero_iff.1 (Nat.eq_zero_of_not_pos hzero)
  rw [hn, hp] at hbeats
  omega

/-- Variable 3 appears first but in a longer clause only; 1 and 2 both occur three times in the
short ones, and the signs of 2 are more evenly balanced. -/
def balanced : List Clause :=
  [[(3, true), (1, true), (4, true)], [(1, true), (2, true)], [(1, true), (2, false)],
    [(2, true), (1, true)]].map fun row =>
      Clause.ofLiterals (row.filterMap fun l => (Literal.ofVar l.1 l.2).toOption)

theorem pick_weighted_balanced :
    balanced ≠ [] ∧ (∀ c ∈ balanced, c.isEmpty = false) ∧
      weighted.pick Table.empty balanced = .ok (some 2) ∧ negated balanced 2 * plain balanced 2 = 2 ∧
      ∀ x ∈ varsOf balanced, negated balanced x + plain balanced x ≤ 3 ∧
        (negated balanced x + plain balanced x = 3 → negated balanced x * plain balanced x ≤ 2) := by
  have hne : balanced ≠ [] := by decide
  have hfull : ∀ c ∈ balanced, c.isEmpty = false := by decide
  have hvars : varsOf balanced = [3, 1, 4, 2] := by
    rw [varsOf_eq]
    decide
  have htwo : weighted.pick Table.empty balanced = .ok (some 2) := by
    rw [pick, pickWeighted_eq, hvars]
    rfl
  obtain ⟨v, hpick, -, -, hlex⟩ := pick_weighted_greatest Table.empty hne hfull
  rw [htwo] at hpick
  cases hpick
  exact ⟨hne, hfull, htwo, by decide, hlex (by decide)⟩

end Heuristic

end FactorSearch
