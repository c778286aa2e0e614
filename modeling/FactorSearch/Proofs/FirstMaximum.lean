import FactorSearch.Heuristic
import Mathlib.Data.List.Basic

/-!
The first of the greatest. Among candidates a heuristic takes the first one that no other
exceeds: everything before it scores less, and nothing after it scores more. The candidates are
variables in order of first appearance, each of them once, so the one that is taken is also the
first of the greatest in the row of all literals of the clauses, with its repetitions.
-/

namespace FactorSearch.Heuristic

open Restriction

/-- Everything before the item scores less, and nothing after it scores more. -/
def FirstMax {α : Type} (score : α → Int) (xs : List α) (a : α) : Prop :=
  ∃ before after, xs = before ++ a :: after ∧ (∀ b ∈ before, score b < score a) ∧
    ∀ b ∈ after, score b ≤ score a

theorem firstMax_map {α β : Type} (score : β → Int) (f : α → β) (as : List α) :
    firstMax score (as.map f) = (firstMax (fun a => score (f a)) as).map f := by
  induction as with
  | nil => rfl
  | cons a rest ih =>
    rw [List.map_cons, firstMax, firstMax, ih]
    cases firstMax (fun a => score (f a)) rest with
    | none => rfl
    | some b =>
      dsimp only [Option.map_some]
      split <;> rfl

theorem firstMax_eq_none_iff {α : Type} {score : α → Int} {xs : List α} :
    firstMax score xs = none ↔ xs = [] := by
  cases xs with
  | nil => exact iff_of_true rfl rfl
  | cons a rest =>
    obtain ⟨b, hb⟩ := firstMax_isSome score (a :: rest) (List.cons_ne_nil a rest)
    rw [hb]
    exact iff_of_false (Option.some_ne_none b) (List.cons_ne_nil a rest)

namespace FirstMax

variable {α : Type} {score : α → Int} {xs : List α} {a x : α}

theorem le (h : FirstMax score xs a) (hx : x ∈ xs) : score x ≤ score a := by
  obtain ⟨before, after, rfl, hbefore, hafter⟩ := h
  rcases List.mem_append.1 hx with hx | hx
  · exact Int.le_of_lt (hbefore x hx)
  · rcases List.mem_cons.1 hx with rfl | hx
    · exact Int.le_refl _
    · exact hafter x hx

theorem cons_iff : FirstMax score (x :: xs) a ↔
    (x = a ∧ ∀ b ∈ xs, score b ≤ score a) ∨ (score x < score a ∧ FirstMax score xs a) := by
  constructor
  · intro h
    obtain ⟨before, after, heq, hbefore, hafter⟩ := h
    cases before with
    | nil =>
      cases heq
      exact .inl ⟨rfl, hafter⟩
    | cons y before =>
      cases heq
      rw [List.forall_mem_cons] at hbefore
      exact .inr ⟨hbefore.1, before, after, rfl, hbefore.2, hafter⟩
  · rintro (⟨rfl, hafter⟩ | ⟨hlt, before, after, rfl, hbefore, hafter⟩)
    · exact ⟨[], xs, rfl, List.forall_mem_nil _, hafter⟩
    · exact ⟨x :: before, after, rfl, List.forall_mem_cons.2 ⟨hlt, hbefore⟩, hafter⟩

theorem of_firstMax (h : firstMax score xs = some a) : FirstMax score xs a := by
  induction xs generalizing a with
  | nil => cases h
  | cons x rest ih =>
    rw [cons_iff]
    rw [firstMax] at h
    cases hrest : firstMax score rest with
    | none =>
      rw [hrest] at h
      cases h
      rw [firstMax_eq_none_iff.1 hrest]
      exact .inl ⟨rfl, List.forall_mem_nil _⟩
    | some b =>
      have hb := ih hrest
      rw [hrest] at h
      dsimp only at h
      split at h
      · rename_i hlt
        cases h
        exact .inr ⟨hlt, hb⟩
      · rename_i hle
        cases h
        exact .inl ⟨rfl, fun c hc => Int.le_trans (hb.le hc) (Int.not_lt.1 hle)⟩

theorem forall_insert_iff {seen : Std.HashSet Int} {v : Int} {P : Int → Prop} :
    (∀ x, (seen.insert v).contains x = true → P x) ↔
      P v ∧ ∀ x, seen.contains x = true → P x := by
  simp only [Std.HashSet.contains_insert, Bool.or_eq_true, beq_iff_eq, or_imp, forall_and,
    forall_eq']

/-- Repetitions do not matter: where the values that have been seen score less, the first of the
greatest of the others is the first of the greatest of all. -/
theorem of_firstSeen {score : Int → Int} {p : Int → Bool} {vs : List Int}
    {seen : Std.HashSet Int} {a : Int} (h : FirstMax score ((firstSeen seen vs).filter p) a)
    (hseen : ∀ v, seen.contains v = true → p v = true → score v < score a) :
    FirstMax score (vs.filter p) a := by
  -- what has been seen scores less than `a`, until `a` itself has been seen
  induction vs generalizing seen with
  | nil => exact h
  | cons v rest ih =>
    rw [firstSeen] at h
    by_cases hp : p v = true
    · rw [List.filter_cons_of_pos hp, cons_iff]
      split at h
      · rename_i hold
        exact .inr ⟨hseen v hold hp, ih h hseen⟩
      · rw [List.filter_cons_of_pos hp, cons_iff] at h
        rcases h with ⟨rfl, hle⟩ | ⟨hlt, hrest⟩
        · -- a later value is a candidate as well, or it has been seen
          refine .inl ⟨rfl, fun b hb => ?_⟩
          obtain ⟨hmem, hpb⟩ := List.mem_filter.1 hb
          cases hold : (seen.insert v).contains b with
          | true =>
            have hle : ∀ x, (seen.insert v).contains x = true → p x = true → score x ≤ score v :=
              forall_insert_iff.2
                ⟨fun _ => Int.le_refl _, fun x hx hpx => Int.le_of_lt (hseen x hx hpx)⟩
            exact hle b hold hpb
          | false =>
            apply hle
            rw [List.mem_filter, firstSeen_eq, List.mem_eraseDups, List.mem_filter, hold]
            exact ⟨⟨hmem, rfl⟩, hpb⟩
        · exact .inr ⟨hlt, ih hrest (forall_insert_iff.2 ⟨fun _ => hlt, hseen⟩)⟩
    · rw [List.filter_cons_of_neg hp]
      split at h
      · exact ih h hseen
      · rw [List.filter_cons_of_neg hp] at h
        exact ih h (forall_insert_iff.2 ⟨fun hpv => absurd hpv hp, hseen⟩)

/-- The first of the greatest among some variables is so in the row of all literals. -/
theorem of_filter_varsOf {score : Int → Int} {p : Int → Bool} {cs : List Clause} {a : Int}
    (h : firstMax score ((varsOf cs).filter p) = some a) :
    FirstMax score ((cs.flatMap Clause.vars).filter p) a :=
  (of_firstMax h).of_firstSeen fun v hv => by simp at hv

theorem of_varsOf {score : Int → Int} {cs : List Clause} {a : Int}
    (h : firstMax score (varsOf cs) = some a) : FirstMax score (cs.flatMap Clause.vars) a := by
  rw [← List.filter_true (varsOf cs)] at h
  rw [← List.filter_true (cs.flatMap Clause.vars)]
  exact of_filter_varsOf h

end FirstMax

end FactorSearch.Heuristic
