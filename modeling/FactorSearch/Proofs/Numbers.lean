import FactorSearch.BitLayout
import FactorSearch.Valuation
import Mathlib.Data.List.Nodup
import Mathlib.Data.Nat.Digits.Defs
import Mathlib.Tactic.Ring

/-!
The numbers that a valuation gives to variables: how many of them are true, what columns
of them weigh, and the binary number whose digits they are. A number below the right
power of two is the value of distinct variables in exactly one way.
-/

namespace FactorSearch

namespace Valuation

variable {v w : Valuation}

/-- The value of a variable as a binary digit. -/
def digit (v : Valuation) (x : Int) : ℕ := (v x).toNat

def bit (v : Valuation) (b : Option Int) : ℕ := b.elim 0 v.digit

/-- How many variables of a column are true. -/
def count (v : Valuation) (column : List Int) : ℕ := (column.map v.digit).sum

/-- What columns weigh, the one of the least weight first. -/
def weight (v : Valuation) (columns : List (List Int)) : ℕ :=
  Nat.ofDigits 2 (columns.map v.count)

/-- The binary number of some bits, the least first. -/
def binary (v : Valuation) (bits : List (Option Int)) : ℕ := Nat.ofDigits 2 (bits.map v.bit)

/-- The binary number of some variables, the least first. -/
def value (v : Valuation) (xs : List Int) : ℕ := Nat.ofDigits 2 (xs.map v.digit)

/-- The binary number of some variables, the most significant first. -/
def number (v : Valuation) (vars : List Int) : ℕ := v.value vars.reverse

@[simp] theorem count_nil (v : Valuation) : v.count [] = 0 := rfl

@[simp] theorem count_cons (v : Valuation) (x : Int) (column : List Int) :
    v.count (x :: column) = v.digit x + v.count column := List.sum_cons

@[simp] theorem count_append (v : Valuation) (xs ys : List Int) :
    v.count (xs ++ ys) = v.count xs + v.count ys := by
  simp [count]

@[simp] theorem weight_nil (v : Valuation) : v.weight [] = 0 := rfl

@[simp] theorem weight_cons (v : Valuation) (column : List Int) (rest : List (List Int)) :
    v.weight (column :: rest) = v.count column + 2 * v.weight rest := Nat.ofDigits_cons

@[simp] theorem binary_nil (v : Valuation) : v.binary [] = 0 := rfl

@[simp] theorem binary_cons (v : Valuation) (b : Option Int) (rest : List (Option Int)) :
    v.binary (b :: rest) = v.bit b + 2 * v.binary rest := Nat.ofDigits_cons

theorem binary_append (v : Valuation) (bs cs : List (Option Int)) :
    v.binary (bs ++ cs) = v.binary bs + 2 ^ bs.length * v.binary cs := by
  unfold binary
  rw [List.map_append, Nat.ofDigits_append, List.length_map]

@[simp] theorem value_nil (v : Valuation) : v.value [] = 0 := rfl

@[simp] theorem value_cons (v : Valuation) (x : Int) (rest : List Int) :
    v.value (x :: rest) = v.digit x + 2 * v.value rest := Nat.ofDigits_cons

theorem value_append (v : Valuation) (xs ys : List Int) :
    v.value (xs ++ ys) = v.value xs + 2 ^ xs.length * v.value ys := by
  unfold value
  rw [List.map_append, Nat.ofDigits_append, List.length_map]

theorem binary_replicate_none (v : Valuation) (n : ℕ) :
    v.binary (List.replicate n none) = 0 := by
  induction n with
  | zero => rfl
  | succ n ih =>
    rw [List.replicate_succ, binary_cons, ih]
    rfl

theorem binary_map_some (v : Valuation) (xs : List Int) : v.binary (xs.map some) = v.value xs := by
  unfold binary value
  rw [List.map_map]
  rfl

theorem count_toList (v : Valuation) (b : Option Int) : v.count b.toList = v.bit b := by
  cases b <;> rfl

theorem weight_map_nil (v : Valuation) (ks : List ℕ) : v.weight (ks.map (fun _ => [])) = 0 := by
  induction ks with
  | nil => rfl
  | cons k ks ih =>
    rw [List.map_cons, weight_cons, ih]
    rfl

/-- Columns with one more bit in each weigh more by the number of these bits. -/
theorem weight_map_of_count {f g : ℕ → List Int} {b : ℕ → Option Int}
    (h : ∀ k, v.count (f k) = v.bit (b k) + v.count (g k)) (ks : List ℕ) :
    v.weight (ks.map f) = v.binary (ks.map b) + v.weight (ks.map g) := by
  induction ks with
  | nil => rfl
  | cons k ks ih =>
    rw [List.map_cons, List.map_cons, List.map_cons, weight_cons, weight_cons, binary_cons, ih, h]
    ring

theorem number_nil (v : Valuation) : v.number [] = 0 := rfl

theorem number_cons (v : Valuation) (x : Int) (rest : List Int) :
    v.number (x :: rest) = 2 ^ rest.length * v.digit x + v.number rest := by
  unfold number
  rw [List.reverse_cons, value_append, value_cons, value_nil, List.length_reverse,
    Nat.mul_zero, Nat.add_zero, Nat.add_comm]

theorem digit_lt (v : Valuation) (x : Int) : v.digit x < 2 := Bool.toNat_lt (v x)

theorem digit_congr {x : Int} (h : v x = w x) : v.digit x = w.digit x := congrArg Bool.toNat h

theorem eq_of_digit_eq {x : Int} (h : v.digit x = w.digit x) : v x = w x := by
  unfold digit at h
  cases hv : v x <;> cases hw : w x <;> simp_all

theorem value_lt (v : Valuation) (xs : List Int) : v.value xs < 2 ^ xs.length := by
  induction xs with
  | nil => exact Nat.one_pos
  | cons x rest ih =>
    have hdigit := v.digit_lt x
    rw [value_cons, List.length_cons, Nat.pow_succ]
    omega

theorem number_lt (v : Valuation) (vars : List Int) : v.number vars < 2 ^ vars.length := by
  unfold number
  rw [← List.length_reverse]
  exact v.value_lt _

theorem value_congr {xs : List Int} (h : ∀ x ∈ xs, v x = w x) : v.value xs = w.value xs := by
  unfold value
  rw [List.map_congr_left (fun x hx => digit_congr (h x hx))]

theorem bit_congr {b : Option Int} (h : ∀ x ∈ b, v x = w x) : v.bit b = w.bit b := by
  cases b with
  | none => rfl
  | some x => exact digit_congr (h x rfl)

theorem binary_congr {bits : List (Option Int)} (h : ∀ x, some x ∈ bits → v x = w x) :
    v.binary bits = w.binary bits := by
  unfold binary
  rw [List.map_congr_left]
  rintro b hb
  apply bit_congr
  intro x heq
  subst heq
  exact h x hb

/-- The value determines the variables. -/
theorem eq_of_value_eq {xs : List Int} (h : v.value xs = w.value xs) :
    ∀ x ∈ xs, v x = w x := by
  induction xs with
  | nil => simp
  | cons x rest ih =>
    have hv := v.digit_lt x
    have hw := w.digit_lt x
    rw [value_cons, value_cons] at h
    have hdigit : v.digit x = w.digit x := by omega
    have hrest : v.value rest = w.value rest := by omega
    rw [List.forall_mem_cons]
    exact ⟨eq_of_digit_eq hdigit, ih hrest⟩

/-- Distinct variables can have any value that fits, whatever the others are. -/
theorem exists_value (u : Valuation) {xs : List Int} (hnodup : xs.Nodup) {a : ℕ}
    (ha : a < 2 ^ xs.length) : ∃ v : Valuation, v.value xs = a ∧ ∀ y, y ∉ xs → v y = u y := by
  induction xs generalizing a with
  | nil =>
    refine ⟨u, ?_, fun _ _ => rfl⟩
    rw [List.length_nil, Nat.pow_zero] at ha
    rw [value_nil]
    omega
  | cons x rest ih =>
    rw [List.nodup_cons] at hnodup
    obtain ⟨hx, hnodup⟩ := hnodup
    rw [List.length_cons, Nat.pow_succ] at ha
    obtain ⟨v, hvalue, hother⟩ := ih hnodup (a := a / 2) (by omega)
    let w : Valuation := fun y => if y = x then decide (a % 2 = 1) else v y
    have hrest : w.value rest = a / 2 := by
      rw [← hvalue]
      apply value_congr
      intro y hy
      have hne : y ≠ x := fun e => hx (e ▸ hy)
      simp only [w, hne, if_false]
    have hdigit : w.digit x = a % 2 := by
      have hwx : w x = decide (a % 2 = 1) := if_pos rfl
      unfold digit
      rw [hwx]
      rcases Nat.mod_two_eq_zero_or_one a with h | h <;> rw [h] <;> rfl
    refine ⟨w, ?_, ?_⟩
    · rw [value_cons, hrest, hdigit]
      omega
    · intro y hy
      rw [List.mem_cons, not_or] at hy
      simp only [w, hy.1, if_false]
      exact hother y hy.2

end Valuation

namespace BitLayout

open FactorSearch.Valuation

theorem numberFrom_eq {v : Valuation} {values : Table Int Bool} {vars : List Int}
    (h : ∀ x ∈ vars, values.get? x = some (v x)) (high : ℕ) :
    numberFrom values high vars = .ok (2 ^ vars.length * high + v.number vars) := by
  induction vars generalizing high with
  | nil =>
    rw [numberFrom, number_nil, List.length_nil, Nat.pow_zero, Nat.one_mul, Nat.add_zero]
  | cons x rest ih =>
    rw [List.forall_mem_cons] at h
    have hdigit : (if v x then 1 else 0) = v.digit x := by
      unfold digit
      cases v x <;> rfl
    rw [numberFrom, h.1]
    simp only [ih h.2, hdigit]
    congr 1
    rw [number_cons, List.length_cons, Nat.pow_succ]
    ring

/-- Variables that have their values in a table are read as their number. -/
theorem number_eq {v : Valuation} {values : Table Int Bool} {vars : List Int}
    (h : ∀ x ∈ vars, values.get? x = some (v x)) :
    number values vars = .ok (v.number vars) := by
  unfold BitLayout.number
  rw [numberFrom_eq h, Nat.mul_zero, Nat.zero_add]

end BitLayout

end FactorSearch
