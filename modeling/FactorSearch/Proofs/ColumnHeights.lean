import FactorSearch.Proofs.PartialProducts

/-!
How many bits are added up in a column. A column sends half as many carries to the next one as
it has bits, and it is left without a bit only if it has none. The partial products of two
numbers rise, stay and fall by at most one from column to column, so at most one carry more
comes into a column than it has partial products. The last column has none of its own: it
takes at most one bit, passes nothing on, and it is empty exactly if one number has one bit.
-/

namespace FactorSearch

open Circuit

namespace Multiplier

theorem length_carries (c : Circuit) (column : List Int) :
    (addColumn c column).carries.length = column.length / 2 := by
  fun_induction addColumn c column with
  | case1 c => rfl
  | case2 c x => simp
  | case3 c x y a d had => simp
  | case4 c x y z rest a d had s ih =>
    have hrest : s.carries.length = (rest ++ [a.sum]).length / 2 := ih
    rw [List.length_append, List.length_singleton] at hrest
    show s.carries.length + 1 = (rest.length + 3) / 2
    omega

theorem bit_eq_none_iff (c : Circuit) (column : List Int) :
    (addColumn c column).bit = none ↔ column = [] := by
  fun_induction addColumn c column with
  | case1 c => exact iff_of_true rfl rfl
  | case2 c x => simp
  | case3 c x y a d had => simp
  | case4 c x y z rest a d had s ih =>
    have hrest : s.bit = none ↔ rest ++ [a.sum] = [] := ih
    simpa using hrest

/-- The columns added up one after another, with carries into the first of them and from each
into the next. -/
def columnSums (c : Circuit) (carries : List Int) : List (List Int) → List ColumnSum
  | [] => []
  | column :: rest =>
    let s := addColumn c (column ++ carries)
    s :: columnSums s.circuit s.carries rest

/-- The carries that leave the last column. -/
def overflow (carries : List Int) (sums : List ColumnSum) : List Int :=
  (sums.getLast?.map ColumnSum.carries).getD carries

theorem length_columnSums (c : Circuit) (carries : List Int) (columns : List (List Int)) :
    (columnSums c carries columns).length = columns.length := by
  induction columns generalizing c carries with
  | nil => rfl
  | cons column rest ih => exact congrArg Nat.succ (ih _ _)

theorem overflow_cons (carries : List Int) (s : ColumnSum) (sums : List ColumnSum) :
    overflow carries (s :: sums) = overflow s.carries sums := by
  unfold overflow
  rw [List.getLast?_cons]
  cases sums.getLast? <;> rfl

/-- If no carry leaves the last column, there is no further one. -/
theorem bits_addColumns {c : Circuit} {carries : List Int} {columns : List (List Int)}
    (h : overflow carries (columnSums c carries columns) = []) :
    (addColumns c carries columns).1 = (columnSums c carries columns).map ColumnSum.bit := by
  induction columns generalizing c carries with
  | nil =>
    have hnone : carries = [] := h
    rw [addColumns, dif_pos hnone]
    rfl
  | cons column rest ih =>
    rw [columnSums, overflow_cons] at h
    rw [addColumns, columnSums, List.map_cons, ← ih h]

/-- The number of carries into a column, if column `k` has `f k` bits of its own. -/
def carriesInto (f : ℕ → ℕ) : ℕ → ℕ
  | 0 => 0
  | k + 1 => (f k + carriesInto f k) / 2

section Heights

variable {c : Circuit} {carries : List Int} {columns : List (List Int)} {f : ℕ → ℕ} {k : ℕ}

/-- The column at index `i` adds up its own bits and the carries into it. -/
theorem columnSums_getElem? (hcarries : carries.length = carriesInto f k)
    (hcolumns : ∀ i column, columns[i]? = some column → column.length = f (k + i)) {i : ℕ}
    {s : ColumnSum} (hs : (columnSums c carries columns)[i]? = some s) :
    s.carries.length = carriesInto f (k + i + 1) ∧
      (s.bit = none ↔ f (k + i) + carriesInto f (k + i) = 0) := by
  induction columns generalizing c carries k i with
  | nil => cases hs
  | cons column rest ih =>
    have hlength : (column ++ carries).length = f k + carriesInto f k := by
      rw [List.length_append, hcarries, hcolumns 0 column rfl]
      rfl
    have hnext : (addColumn c (column ++ carries)).carries.length = carriesInto f (k + 1) := by
      rw [length_carries, hlength, carriesInto]
    cases i with
    | zero =>
      cases hs
      refine ⟨hnext, ?_⟩
      rw [bit_eq_none_iff, ← List.length_eq_zero_iff, hlength]
      rfl
    | succ i =>
      have hrest := ih hnext (fun j column hj => by
        rw [hcolumns (j + 1) column hj, Nat.add_assoc, Nat.add_comm 1 j]) hs
      have hindex : k + 1 + i = k + (i + 1) := by omega
      rwa [hindex] at hrest

end Heights

/-- The number of partial products of weight `2 ^ k` of two numbers with `n` and `m` bits. -/
def productsAt (n m k : ℕ) : ℕ := min (k + 1) n - (k + 1 - m)

/-- One partial product of each row, from the first row that reaches the place to the last one
that is not beyond it. -/
theorem length_column {m : ℕ} {rows : List (List Int)} (h : ∀ row ∈ rows, row.length = m)
    (s k : ℕ) :
    (column s k rows).length = min (k + 1) (s + rows.length) - max s (k + 1 - m) := by
  induction rows generalizing s with
  | nil =>
    show 0 = _
    rw [List.length_nil]
    omega
  | cons row rows ih =>
    rw [List.forall_mem_cons] at h
    obtain ⟨hrow, hrows⟩ := h
    have hplace : (place s k row).toList.length = if s ≤ k ∧ k - s < m then 1 else 0 := by
      unfold place
      by_cases hlow : s ≤ k
      · by_cases hhigh : k - s < m
        · rw [if_pos hlow, if_pos ⟨hlow, hhigh⟩, List.getElem?_eq_getElem (hrow ▸ hhigh)]
          rfl
        · rw [if_pos hlow, if_neg fun hboth => hhigh hboth.2, List.getElem?_eq_none (by omega)]
          rfl
      · rw [if_neg hlow, if_neg fun hboth => hlow hboth.1]
        rfl
    rw [column_cons, List.length_append, hplace, ih hrows, List.length_cons]
    split <;> omega

theorem length_column_zero {n m : ℕ} {rows : List (List Int)} (hrows : rows.length = n)
    (h : ∀ row ∈ rows, row.length = m) (k : ℕ) :
    (column 0 k rows).length = productsAt n m k := by
  rw [length_column h, hrows, productsAt, Nat.zero_add, Nat.zero_max]

section Products

variable {n m : ℕ}

/-- From one column to the next at most one partial product is lost. -/
theorem productsAt_le_succ (n m k : ℕ) : productsAt n m k ≤ productsAt n m (k + 1) + 1 := by
  unfold productsAt
  omega

theorem carriesInto_le (n m k : ℕ) :
    carriesInto (productsAt n m) k ≤ productsAt n m k + 1 := by
  induction k with
  | zero => exact Nat.zero_le _
  | succ k ih =>
    have hstep := productsAt_le_succ n m k
    rw [carriesInto]
    omega

theorem productsAt_pos {k : ℕ} (hn : 1 ≤ n) (hm : 1 ≤ m) (hk : k + 1 < n + m) :
    0 < productsAt n m k := by
  unfold productsAt
  omega

theorem productsAt_last (n m : ℕ) {k : ℕ} (hk : k + 1 = n + m) : productsAt n m k = 0 := by
  unfold productsAt
  omega

/-- The last column takes one bit at most. -/
theorem carriesInto_last (n m : ℕ) {k : ℕ} (hk : k + 1 = n + m) :
    carriesInto (productsAt n m) (k + 1) = 0 := by
  have hzero := productsAt_last n m hk
  have hle := carriesInto_le n m k
  rw [carriesInto]
  omega

/-- With a single row or rows of a single bit nothing is ever carried. -/
theorem carriesInto_eq_zero (h : min n m = 1) (k : ℕ) : carriesInto (productsAt n m) k = 0 := by
  induction k with
  | zero => rfl
  | succ k ih =>
    have hone : productsAt n m k ≤ 1 := by
      unfold productsAt
      omega
    rw [carriesInto, ih]
    omega

/-- Otherwise the two columns before the last have enough partial products for a carry into it. -/
theorem carriesInto_pos {k : ℕ} (hn : 2 ≤ n) (hm : 2 ≤ m) (hk : k + 3 = n + m) :
    0 < carriesInto (productsAt n m) (k + 2) := by
  have htwo : productsAt n m k = 2 := by
    unfold productsAt
    omega
  have hone := productsAt_pos (k := k + 1) (by omega : 1 ≤ n) (by omega : 1 ≤ m) (by omega)
  rw [carriesInto, carriesInto, htwo]
  omega

/-- A column has no bit exactly if it is the last one and one of the numbers has one bit. -/
theorem height_eq_zero_iff {k : ℕ} (hn : 1 ≤ n) (hm : 1 ≤ m) (hk : k < n + m) :
    productsAt n m k + carriesInto (productsAt n m) k = 0 ↔ k + 1 = n + m ∧ min n m = 1 := by
  constructor
  · intro hzero
    have hlast : k + 1 = n + m := by
      by_contra hne
      have hpos := productsAt_pos hn hm (by omega : k + 1 < n + m)
      omega
    refine ⟨hlast, ?_⟩
    by_contra hwide
    obtain ⟨j, rfl⟩ : ∃ j, k = j + 2 := ⟨k - 2, by omega⟩
    have hpos := carriesInto_pos (k := j) (by omega : 2 ≤ n) (by omega : 2 ≤ m) hlast
    omega
  · intro hboth
    obtain ⟨hlast, hmin⟩ := hboth
    rw [productsAt_last n m hlast, carriesInto_eq_zero hmin]

end Products

end Multiplier

end FactorSearch
