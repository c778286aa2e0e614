import FactorSearch.Factorisation
import FactorSearch.Proofs.Satisfaction

/-!
The assignment that a path stands for. It exists unless the path fixes a variable
twice, and it gives each fixed variable the sign of its literal. Descending cannot
spoil it, since a variable of the path occurs in no clause below. Completion keeps
all values and makes the remaining variables of a problem false.
-/

namespace FactorSearch

open Restriction PureLiterals

namespace Node

/-- Every node is reached from its root by fixing its path. -/
theorem eq_fixAll_root (n : Node) : n = fixAll n.root n.assignments := by
  obtain ⟨origin, path, clauses, hdistinct, hclauses⟩ := n
  subst hclauses
  unfold assignments root
  induction path with
  | nil => rfl
  | cons l rest ih =>
    rw [List.reverse_cons, fixAll_append, ← ih]
    rfl

theorem assignments_fixAll (n : Node) (ls : List Literal) :
    (fixAll n ls).assignments = n.assignments ++ ls := by
  induction ls generalizing n with
  | nil => exact (List.append_nil _).symm
  | cons l rest ih =>
    have hchild : (n.child l).assignments = n.assignments ++ [l] := List.reverse_cons
    rw [fixAll, List.foldl_cons, ← fixAll, ih, hchild, List.append_assoc]
    rfl

/-- A variable that has been fixed occurs no more. -/
theorem notMem_path_of_mem_vars {n : Node} {v : Int} (h : v ∈ n.vars) :
    v ∉ n.assignments.map Literal.var := by
  rw [n.eq_fixAll_root] at h
  exact (mem_vars_fixAll h).2

theorem keys_insert_of_notMem {t : Table Int Bool} {v : Int} (b : Bool) (hv : v ∉ t.keys) :
    (t.insert v b).keys = t.keys ++ [v] := by
  rw [Table.keys_insert, if_neg hv]

theorem valuesAlong_isOk_iff (ls : List Literal) (t : Table Int Bool) :
    (∃ values, valuesAlong ls t = .ok values) ↔
      (ls.map Literal.var).Nodup ∧ ∀ l ∈ ls, l.var ∉ t.keys := by
  induction ls generalizing t with
  | nil => simp [valuesAlong]
  | cons l rest ih =>
    by_cases hl : t.contains l.var = true
    · have hkey : l.var ∈ t.keys := (t.contains_iff l.var).1 hl
      simp only [valuesAlong, hl, if_true]
      constructor
      · intro hexists
        obtain ⟨values, h⟩ := hexists
        exact absurd h (by simp)
      · intro hboth
        obtain ⟨-, h⟩ := hboth
        exact absurd hkey (h l List.mem_cons_self)
    · have hkey : l.var ∉ t.keys := fun h => hl ((t.contains_iff l.var).2 h)
      simp only [valuesAlong, hl, Bool.false_eq_true, if_false, ih,
        keys_insert_of_notMem _ hkey, List.mem_append, List.mem_singleton, not_or,
        List.map_cons, List.nodup_cons, List.forall_mem_cons]
      constructor
      · intro hboth
        obtain ⟨hnd, hrest⟩ := hboth
        refine ⟨⟨?_, hnd⟩, hkey, fun m hm => (hrest m hm).1⟩
        intro hmem
        obtain ⟨m, hm, hvar⟩ := List.mem_map.1 hmem
        exact (hrest m hm).2 hvar
      · intro hboth
        obtain ⟨⟨hl, hnd⟩, -, hrest⟩ := hboth
        exact ⟨hnd, fun m hm => ⟨hrest m hm, fun e => hl (e ▸ List.mem_map_of_mem hm)⟩⟩

/-- Values that are in the table stay there. -/
theorem get?_valuesAlong_of_some {ls : List Literal} {t values : Table Int Bool} {x : Int}
    {b : Bool} (h : valuesAlong ls t = .ok values) (hx : t.get? x = some b) :
    values.get? x = some b := by
  induction ls generalizing t with
  | nil =>
    cases h
    exact hx
  | cons l rest ih =>
    simp only [valuesAlong] at h
    split at h
    · simp at h
    · rename_i hnew
      apply ih h
      rw [Table.get?_insert, if_neg, hx]
      intro heq
      subst heq
      simp [Table.contains, hx] at hnew

theorem get?_valuesAlong_of_mem {ls : List Literal} {t values : Table Int Bool} {l : Literal}
    (h : valuesAlong ls t = .ok values) (hl : l ∈ ls) :
    values.get? l.var = some l.positive := by
  induction ls generalizing t with
  | nil => exact absurd hl List.not_mem_nil
  | cons m rest ih =>
    simp only [valuesAlong] at h
    split at h
    · simp at h
    · rcases List.mem_cons.1 hl with rfl | hrest
      · exact get?_valuesAlong_of_some h (by simp)
      · exact ih h hrest

theorem assignmentMap_isOk_iff (n : Node) :
    (∃ values, n.assignmentMap = .ok values) ↔ (n.assignments.map Literal.var).Nodup := by
  unfold assignmentMap
  rw [valuesAlong_isOk_iff]
  exact and_iff_left (fun l _ => List.not_mem_nil)

theorem get?_assignmentMap {n : Node} {values : Table Int Bool} {l : Literal}
    (h : n.assignmentMap = .ok values) (hl : l ∈ n.assignments) :
    values.get? l.var = some l.positive := get?_valuesAlong_of_mem h hl

theorem exists_mem_of_get?_valuesAlong {ls : List Literal} {t values : Table Int Bool} {x : Int}
    {b : Bool} (h : valuesAlong ls t = .ok values) (hx : values.get? x = some b) :
    t.get? x = some b ∨ x ∈ ls.map Literal.var := by
  induction ls generalizing t with
  | nil =>
    cases h
    exact Or.inl hx
  | cons l rest ih =>
    simp only [valuesAlong] at h
    split at h
    · cases h
    · rw [List.map_cons, List.mem_cons]
      rcases ih h with ht | hrest
      · rw [Table.get?_insert] at ht
        split at ht
        · rename_i hl
          exact Or.inr (Or.inl hl.symm)
        · exact Or.inl ht
      · exact Or.inr (Or.inr hrest)

/-- Only variables that are fixed on the way have a value. -/
theorem mem_of_get?_assignmentMap {n : Node} {values : Table Int Bool} {x : Int} {b : Bool}
    (h : n.assignmentMap = .ok values) (hx : values.get? x = some b) :
    x ∈ n.assignments.map Literal.var :=
  (exists_mem_of_get?_valuesAlong h hx).resolve_left (by simp)

namespace Descends

variable {n m : Node} {fixed : List Literal}

theorem assignments_eq (h : n.Descends m fixed) : m.assignments = n.assignments ++ fixed := by
  rw [h.reached, assignments_fixAll]

/-- The path of the lower node fixes a variable twice only if that of the upper one does. -/
theorem assignmentMap_isOk_iff (h : n.Descends m fixed) :
    (∃ values, m.assignmentMap = .ok values) ↔ ∃ values, n.assignmentMap = .ok values := by
  rw [Node.assignmentMap_isOk_iff, Node.assignmentMap_isOk_iff, h.assignments_eq,
    List.map_append, List.nodup_append]
  constructor
  · exact fun hnd => hnd.1
  · intro hnd
    refine ⟨hnd, h.distinct, ?_⟩
    intro x hx y hy hxy
    obtain ⟨l, hl, rfl⟩ := List.mem_map.1 hy
    exact notMem_path_of_mem_vars (h.occurs l hl) (hxy ▸ hx)

end Descends

end Node

namespace Factorisation

theorem get?_insertIfNew (t : Table Int Bool) (k x : Int) (b : Bool) :
    (t.insertIfNew k b).get? x = (t.get? x).or (if k = x then some b else none) := by
  unfold Table.insertIfNew Table.contains
  by_cases hk : (t.get? k).isSome = true
  · rw [if_pos hk]
    by_cases hx : k = x
    · subst hx
      obtain ⟨a, ha⟩ := Option.isSome_iff_exists.1 hk
      rw [ha, Option.some_or]
    · rw [if_neg hx, Option.or_none]
  · rw [if_neg hk, Table.get?_insert]
    by_cases hx : k = x
    · subst hx
      have hnone : t.get? k = none := by simpa using hk
      rw [if_pos rfl, hnone, if_pos rfl, Option.none_or]
    · rw [if_neg hx, if_neg hx, Option.or_none]

theorem get?_foldl_insertIfNew (vs : List Int) (t : Table Int Bool) (x : Int) :
    (vs.foldl (fun t v => t.insertIfNew v false) t).get? x =
      (t.get? x).or (if x ∈ vs then some false else none) := by
  induction vs generalizing t with
  | nil => simp
  | cons v rest ih =>
    rw [List.foldl_cons, ih, get?_insertIfNew, Option.or_assoc]
    by_cases hv : v = x
    · simp [hv]
    · simp [hv, Ne.symm hv]

/-- Completion keeps all values and adds false for the other variables of the problem. -/
theorem get?_complete (f : Factorisation) (t : Table Int Bool) (x : Int) :
    (f.complete t).get? x = (t.get? x).or (if x ∈ f.vars then some false else none) :=
  get?_foldl_insertIfNew f.vars t x

theorem verify_iff (f : Factorisation) (t : Table Int Bool) :
    f.verify t = true ↔
      ∀ c ∈ f.root.clauses, ∃ l ∈ c.literals, t.get? l.var = some l.positive := by
  simp [verify]

end Factorisation

end FactorSearch
