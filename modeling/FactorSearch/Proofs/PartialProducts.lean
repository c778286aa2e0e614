import FactorSearch.Proofs.Columns

/-!
The partial products. Each is a new variable, true when both of its bits are. A row of
them has the value of one bit times the other number, and the rows together, each
shifted by its place, the product of the two numbers. Sorted into columns they weigh the
same, as long as there is a column for each place.
-/

namespace FactorSearch

open Circuit FactorSearch.Valuation

namespace Multiplier

theorem newVars_eq (c : Circuit) (n : ℕ) :
    newVars c n =
      ((List.range n).map (fun i : ℕ => (c.size + 1 + i : Int)),
        { c with size := c.size + n }) := by
  induction n generalizing c with
  | zero => rfl
  | succ n ih =>
    rw [newVars]
    simp only [newVar, ih, List.range_succ_eq_map, List.map_cons, List.map_map]
    congr 1
    · congr 1
      apply List.map_congr_left
      intro i _
      simp only [Function.comp]
      omega
    · congr 1
      omega

theorem size_newVars (c : Circuit) (n : ℕ) : (newVars c n).2.size = c.size + n := by
  rw [newVars_eq]

theorem mem_newVars {c : Circuit} {n : ℕ} {x : Int} :
    x ∈ (newVars c n).1 ↔ c.size < x ∧ x ≤ c.size + n := by
  rw [newVars_eq]
  simp only [List.mem_map, List.mem_range]
  constructor
  · intro hexists
    obtain ⟨i, hi, rfl⟩ := hexists
    constructor <;> omega
  · intro hboth
    obtain ⟨hlow, hhigh⟩ := hboth
    exact ⟨(x - c.size - 1).toNat, by omega, by omega⟩

theorem fresh_newVars (c : Circuit) (n : ℕ) :
    Fresh c.size (newVars c n).2.size (newVars c n).1 := by
  constructor
  · rw [newVars_eq]
    apply List.nodup_range.map
    intro i j hij
    simpa using hij
  · intro x hx
    obtain ⟨hlow, hhigh⟩ := mem_newVars.1 hx
    rw [size_newVars]
    exact ⟨hlow, by omega⟩

/-- What a row of partial products guarantees. -/
structure RowOf (c : Circuit) (x : Int) (ys row : List Int) (d : Circuit) : Prop where
  circuit : c.Extends d
  size : d.size = c.size + ys.length
  fresh : Fresh c.size d.size row
  length : row.length = ys.length
  value : ∀ v : Valuation, v.Models d.clauses → v.value row = v.digit x * v.value ys
  occurs : ∀ y ∈ ys, d.Occurs x ∧ d.Occurs y

theorem occurs_andGate {c : Circuit} {x y : Int} (hx : 0 < x) (hy : 0 < y) :
    (c.andGate x y).2.Occurs x ∧ (c.andGate x y).2.Occurs y := by
  unfold Occurs andGate
  rw [clauses_gate]
  refine ⟨⟨[-(c.size + 1), x], ?_, x, by simp, by omega⟩, ⟨[-(c.size + 1), y], ?_, y, by simp, by omega⟩⟩
  · simp [andClauses]
  · simp [andClauses]

theorem productRow_rowOf {c : Circuit} {x : Int} {ys : List Int} (hc : c.WellFormed)
    (hx : c.Has x) (hys : ∀ y ∈ ys, c.Has y ∧ x ≠ y) :
    RowOf c x ys (productRow c x ys).1 (productRow c x ys).2 := by
  induction ys generalizing c with
  | nil =>
    exact ⟨Extends.refl hc, rfl, Fresh.nil _ _, rfl, by simp [productRow], by simp⟩
  | cons y ys ih =>
    rw [List.forall_mem_cons] at hys
    obtain ⟨⟨hy, hxy⟩, hys⟩ := hys
    have hgate := extends_andGate hc hx hy hxy
    have hrest := ih hgate.wellFormed (hgate.has hx) (fun z hz => ⟨hgate.has (hys z hz).1, (hys z hz).2⟩)
    have hsize : (c.andGate x y).2.size = c.size + 1 := rfl
    have hfresh : Fresh c.size (c.andGate x y).2.size [(c.andGate x y).1] := by
      apply Fresh.singleton
      · show (c.size : Int) < c.size + 1
        omega
      · show (c.size : Int) + 1 ≤ (c.size + 1 : ℕ)
        omega
    rw [productRow]
    refine ⟨hgate.trans hrest.circuit, ?_, hfresh.append hrest.fresh hgate.size_le hrest.circuit.size_le,
      congrArg Nat.succ hrest.length, ?_, ?_⟩
    · have hlater := hrest.size
      show (productRow (c.andGate x y).2 x ys).2.size = c.size + (ys.length + 1)
      omega
    · intro v hv
      have hbit : v (c.andGate x y).1 = (v x && v y) :=
        value_andGate hx.1 hy.1 (hrest.circuit.models hv)
      have hdigit : v.digit (c.andGate x y).1 = v.digit x * v.digit y := by
        unfold digit
        rw [hbit]
        cases v x <;> cases v y <;> rfl
      show v.value (_ :: _) = _
      rw [value_cons, value_cons, hrest.value v hv, hdigit]
      ring
    · have hnow := occurs_andGate (c := c) hx.1 hy.1
      rw [List.forall_mem_cons]
      exact ⟨⟨hrest.circuit.occurs hnow.1, hrest.circuit.occurs hnow.2⟩, hrest.occurs⟩

/-- What the rows of all partial products guarantee. -/
structure RowsOf (c : Circuit) (xs ys : List Int) (rows : List (List Int)) (d : Circuit) :
    Prop where
  circuit : c.Extends d
  size : d.size = c.size + xs.length * ys.length
  fresh : Fresh c.size d.size rows.flatten
  length : rows.length = xs.length
  lengths : ∀ row ∈ rows, row.length = ys.length
  value : ∀ v : Valuation, v.Models d.clauses →
    Nat.ofDigits 2 (rows.map v.value) = v.value xs * v.value ys
  occurs : ∀ x ∈ xs, ∀ y ∈ ys, d.Occurs x ∧ d.Occurs y

theorem productRows_rowsOf {c : Circuit} {xs ys : List Int} (hc : c.WellFormed)
    (hxs : ∀ x ∈ xs, c.Has x ∧ x ∉ ys) (hys : ∀ y ∈ ys, c.Has y) :
    RowsOf c xs ys (productRows c ys xs).1 (productRows c ys xs).2 := by
  induction xs generalizing c with
  | nil =>
    exact ⟨Extends.refl hc, by simp [productRows], Fresh.nil _ _, rfl, by simp [productRows],
      by simp [productRows], by simp⟩
  | cons x xs ih =>
    rw [List.forall_mem_cons] at hxs
    obtain ⟨⟨hx, hnew⟩, hxs⟩ := hxs
    have hrow : RowOf c x ys _ _ :=
      productRow_rowOf hc hx (fun y hy => ⟨hys y hy, fun e => hnew (e ▸ hy)⟩)
    have hrest := ih hrow.circuit.wellFormed
      (fun z hz => ⟨hrow.circuit.has (hxs z hz).1, (hxs z hz).2⟩)
      (fun y hy => hrow.circuit.has (hys y hy))
    rw [productRows]
    refine ⟨hrow.circuit.trans hrest.circuit, ?_,
      hrow.fresh.append hrest.fresh hrow.circuit.size_le hrest.circuit.size_le,
      congrArg Nat.succ hrest.length, ?_, ?_, ?_⟩
    · have hnow := hrow.size
      have hlater := hrest.size
      show (productRows (productRow c x ys).2 ys xs).2.size = c.size + (xs.length + 1) * ys.length
      rw [Nat.succ_mul]
      omega
    · exact List.forall_mem_cons.2 ⟨hrow.length, hrest.lengths⟩
    · intro v hv
      have hnow := hrow.value v (hrest.circuit.models hv)
      have hlater := hrest.value v hv
      show Nat.ofDigits 2 (v.value _ :: _) = _
      rw [Nat.ofDigits_cons, hlater, value_cons, hnow]
      ring
    · rw [List.forall_mem_cons]
      refine ⟨fun y hy => ?_, hrest.occurs⟩
      obtain ⟨hx, hy⟩ := hrow.occurs y hy
      exact ⟨hrest.circuit.occurs hx, hrest.circuit.occurs hy⟩

/-- The bit at one place of a row that is shifted by `s` places. -/
def place (s k : ℕ) (row : List Int) : Option Int := if s ≤ k then row[k - s]? else none

/-- The bits at one place, when the first of the rows is shifted by `s` places. -/
def column (s k : ℕ) (rows : List (List Int)) : List Int :=
  (rows.zipIdx s).filterMap fun (row, i) => place i k row

theorem columns_eq (width : ℕ) (rows : List (List Int)) :
    columns width rows = (List.range width).map (fun k => column 0 k rows) := rfl

theorem column_cons (s k : ℕ) (row : List Int) (rows : List (List Int)) :
    column s k (row :: rows) = (place s k row).toList ++ column (s + 1) k rows := by
  unfold column
  rw [List.zipIdx_cons, List.filterMap_cons]
  cases h : place s k row <;> simp [h]

theorem mem_of_mem_place {s k : ℕ} {row : List Int} {x : Int}
    (h : x ∈ (place s k row).toList) : x ∈ row := by
  unfold place at h
  split at h
  · exact List.mem_of_getElem? (Option.mem_toList.1 h)
  · simp at h

theorem column_subset (s k : ℕ) (rows : List (List Int)) : column s k rows ⊆ rows.flatten := by
  induction rows generalizing s with
  | nil => exact List.Subset.refl _
  | cons row rows ih =>
    rw [column_cons, List.flatten_cons]
    intro x hx
    rcases List.mem_append.1 hx with hx | hx
    · exact List.mem_append_left _ (mem_of_mem_place hx)
    · exact List.mem_append_right _ (ih (s + 1) hx)

theorem nodup_column {rows : List (List Int)} (h : rows.flatten.Nodup) (s k : ℕ) :
    (column s k rows).Nodup := by
  induction rows generalizing s with
  | nil => exact List.nodup_nil
  | cons row rows ih =>
    rw [List.flatten_cons] at h
    obtain ⟨-, hrows, hdisjoint⟩ := List.nodup_append'.1 h
    rw [column_cons]
    refine List.Nodup.append ?_ (ih hrows (s + 1)) ?_
    · cases place s k row
      · exact List.nodup_nil
      · exact List.nodup_singleton _
    · intro x hx hx'
      exact hdisjoint (mem_of_mem_place hx) (column_subset _ _ _ hx')

theorem length_column_le (s k : ℕ) (rows : List (List Int)) :
    (column s k rows).length ≤ rows.length := by
  apply (List.length_filterMap_le _ _).trans
  rw [List.length_zipIdx]

/-- The places of a shifted row: those that it leaves out, its bits and the rest. -/
theorem map_place {row : List Int} {s width : ℕ} (h : s + row.length ≤ width) :
    (List.range width).map (fun k => place s k row) =
      List.replicate s none ++
        (row.map some ++ List.replicate (width - (s + row.length)) none) := by
  apply List.ext_getElem
  · simp only [List.length_map, List.length_range, List.length_append, List.length_replicate]
    omega
  · intro k hk hk'
    simp only [List.getElem_map, List.getElem_range, List.getElem_append, List.length_replicate,
      List.getElem_replicate, List.length_map]
    unfold place
    by_cases hlow : k < s
    · rw [dif_pos hlow, if_neg (by omega)]
    · rw [dif_neg hlow, if_pos (by omega)]
      by_cases hhigh : k - s < row.length
      · rw [dif_pos hhigh, List.getElem?_eq_getElem hhigh]
      · rw [dif_neg hhigh, List.getElem?_eq_none (by omega)]

theorem binary_place (v : Valuation) {row : List Int} {s width : ℕ}
    (h : s + row.length ≤ width) :
    v.binary ((List.range width).map (fun k => place s k row)) = 2 ^ s * v.value row := by
  rw [map_place h, binary_append, binary_append, binary_replicate_none, binary_replicate_none,
    binary_map_some, List.length_replicate, Nat.mul_zero, Nat.add_zero, Nat.zero_add]

/-- If there is a place for every bit of the rows, there is one for the first row and, one place
further on, for the others. -/
theorem places_cons {row : List Int} {rows : List (List Int)} {s width : ℕ}
    (h : ∀ r ∈ row :: rows, s + (row :: rows).length + r.length ≤ width + 1) :
    s + row.length ≤ width ∧ ∀ r ∈ rows, s + 1 + rows.length + r.length ≤ width + 1 := by
  simp only [List.forall_mem_cons, List.length_cons] at h
  obtain ⟨hrow, hrest⟩ := h
  refine ⟨by omega, fun r hr => ?_⟩
  have hle := hrest r hr
  omega

/-- Sorted into columns, rows that are shifted by their places weigh as much as before. -/
theorem weight_column (v : Valuation) {rows : List (List Int)} {s width : ℕ}
    (h : ∀ row ∈ rows, s + rows.length + row.length ≤ width + 1) :
    v.weight ((List.range width).map (fun k => column s k rows)) =
      2 ^ s * Nat.ofDigits 2 (rows.map v.value) := by
  induction rows generalizing s with
  | nil =>
    show v.weight ((List.range width).map (fun _ => [])) = 2 ^ s * 0
    rw [weight_map_nil, Nat.mul_zero]
  | cons row rows ih =>
    obtain ⟨hrow, hrest⟩ := places_cons h
    have hcount : ∀ k, v.count (column s k (row :: rows)) =
        v.bit (place s k row) + v.count (column (s + 1) k rows) := by
      intro k
      rw [column_cons, count_append, count_toList]
    rw [weight_map_of_count hcount, binary_place v hrow, ih hrest, List.map_cons,
      Nat.ofDigits_cons, Nat.pow_succ]
    ring

theorem length_flatten_le {k : ℕ} {columns : List (List Int)}
    (h : ∀ column ∈ columns, column.length ≤ k) : columns.flatten.length ≤ columns.length * k := by
  induction columns with
  | nil => exact Nat.zero_le _
  | cons column rest ih =>
    rw [List.forall_mem_cons] at h
    have hrest := ih h.2
    rw [List.flatten_cons, List.length_append, List.length_cons, Nat.succ_mul]
    omega

/-- A column has at most one bit of each row. -/
theorem length_flatten_columns_le (width : ℕ) (rows : List (List Int)) :
    (columns width rows).flatten.length ≤ width * rows.length := by
  have hle : (columns width rows).flatten.length ≤ (columns width rows).length * rows.length := by
    apply length_flatten_le
    intro bits hbits
    rw [columns_eq] at hbits
    obtain ⟨k, -, rfl⟩ := List.mem_map.1 hbits
    exact length_column_le 0 k rows
  rwa [columns_eq, List.length_map, List.length_range] at hle

end Multiplier

end FactorSearch
