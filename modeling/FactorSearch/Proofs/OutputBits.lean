import FactorSearch.Proofs.ColumnHeights
import FactorSearch.Proofs.ExactMultiplier
import Mathlib.Data.List.Perm.Basic
import Mathlib.Data.List.ReduceOption

/-!
The columns fit the output. Each partial product is in one column only, and what an adder puts
out is new: its sum stays in the column, its carry goes to the next one. So no two columns leave
the same bit, and the variables that stand in for missing bits are new as well. With the count
of the bits of each column this says that the columns are as many as the bits of the output, and
which of them are empty.
-/

namespace FactorSearch

open Circuit

namespace Multiplier

theorem reduceOption_map_place {row : List Int} {s width : ℕ} (h : s + row.length ≤ width) :
    ((List.range width).map (fun k => place s k row)).reduceOption = row := by
  rw [map_place h, List.reduceOption_append, List.reduceOption_append,
    List.reduceOption_replicate_none, List.reduceOption_replicate_none, List.append_nil,
    List.nil_append, List.reduceOption, List.filterMap_map]
  exact List.filterMap_some

/-- Sorting rows into columns keeps their bits. -/
theorem flatten_column_perm {rows : List (List Int)} {s width : ℕ}
    (h : ∀ row ∈ rows, s + rows.length + row.length ≤ width + 1) :
    ((List.range width).flatMap (fun k => column s k rows)).Perm rows.flatten := by
  induction rows generalizing s with
  | nil => simp [column]
  | cons row rows ih =>
    obtain ⟨hrow, hrest⟩ := places_cons h
    have hplaces : (List.range width).flatMap (fun k => (place s k row).toList) = row := by
      rw [← List.filterMap_eq_flatMap_toList]
      have hreduced := reduceOption_map_place hrow
      rwa [List.reduceOption, List.filterMap_map] at hreduced
    simp only [column_cons]
    apply (List.flatMap_append_perm (List.range width) _ _).symm.trans
    rw [hplaces]
    exact (ih hrest).append_left row

/-- Columns and carries without a common bit: the columns are from before the base, the carries
are newer. -/
structure Separate (base : ℕ) (c : Circuit) (carries : List Int) (columns : List (List Int)) :
    Prop where
  wellFormed : c.WellFormed
  base_le : base ≤ c.size
  carries : Fresh base c.size carries
  columns : Fresh 0 base columns.flatten

namespace Separate

variable {base : ℕ} {c : Circuit} {carries column : List Int} {rest columns : List (List Int)}
  {x : Int}

theorem fresh_append (h : Separate base c carries (column :: rest)) :
    Fresh 0 c.size (column ++ carries) :=
  h.columns.left.append h.carries (Nat.zero_le _) h.base_le

theorem adds (h : Separate base c carries (column :: rest)) :
    (addColumn c (column ++ carries)).Adds c (column ++ carries) :=
  addColumn_adds h.wellFormed (fun x hx => h.fresh_append.between x hx) h.fresh_append.nodup

/-- The columns after the first, with its carries. -/
theorem tail (h : Separate base c carries (column :: rest)) :
    Separate base (addColumn c (column ++ carries)).circuit
      (addColumn c (column ++ carries)).carries rest where
  wellFormed := h.adds.circuit.wellFormed
  base_le := h.base_le.trans h.adds.circuit.size_le
  carries := h.adds.fresh.mono h.base_le le_rfl
  columns := h.columns.right

/-- The bits that are left were in the columns or the carries, or they are new. -/
theorem source (h : Separate base c carries columns) :
    ∀ x ∈ (columnSums c carries columns).filterMap ColumnSum.bit,
      x ∈ columns.flatten ∨ x ∈ carries ∨ c.size < x := by
  induction columns generalizing c carries with
  | nil => simp [columnSums]
  | cons column rest ih =>
    intro x hx
    rw [columnSums] at hx
    obtain ⟨s, hs, hbit⟩ := List.mem_filterMap.1 hx
    rcases List.mem_cons.1 hs with rfl | hlater
    · rcases h.adds.source x hbit with hold | ⟨hnew, -⟩
      · rcases List.mem_append.1 hold with hown | hincoming
        · exact .inl (List.mem_append_left _ hown)
        · exact .inr (.inl hincoming)
      · exact .inr (.inr hnew)
    · have hsize := h.adds.circuit.size_le
      rcases ih h.tail x (List.mem_filterMap.2 ⟨s, hlater, hbit⟩) with hown | hcarried | hnew
      · exact .inl (List.mem_append_right column hown)
      · exact .inr (.inr (h.adds.fresh.between x hcarried).1)
      · exact .inr (.inr (by omega))

/-- The bit that a column leaves is none of the bits of later columns. -/
theorem bit_notMem_flatten (h : Separate base c carries (column :: rest))
    (hx : (addColumn c (column ++ carries)).bit = some x) : x ∉ rest.flatten := by
  intro hmem
  have hbelow := (h.columns.right.between x hmem).2
  have hbase := h.base_le
  rcases h.adds.source x hx with hold | ⟨hnew, -⟩
  · rcases List.mem_append.1 hold with hown | hincoming
    · exact h.columns.disjoint hown hmem
    · have habove := (h.carries.between x hincoming).1
      omega
  · omega

theorem bit_notMem_carries (h : Separate base c carries (column :: rest))
    (hx : (addColumn c (column ++ carries)).bit = some x) :
    x ∉ (addColumn c (column ++ carries)).carries := by
  intro hmem
  have hnew := (h.adds.fresh.between x hmem).1
  rcases h.adds.source x hx with hold | ⟨-, hnotMem⟩
  · have hle := (h.fresh_append.between x hold).2
    omega
  · exact hnotMem hmem

/-- No two columns leave the same bit. -/
theorem nodup_bits (h : Separate base c carries columns) :
    ((columnSums c carries columns).filterMap ColumnSum.bit).Nodup := by
  induction columns generalizing c carries with
  | nil => exact List.nodup_nil
  | cons column rest ih =>
    rw [columnSums]
    cases hbit : (addColumn c (column ++ carries)).bit with
    | none =>
      rw [List.filterMap_cons_none hbit]
      exact ih h.tail
    | some x =>
      rw [List.filterMap_cons_some hbit, List.nodup_cons]
      refine ⟨fun hx => ?_, ih h.tail⟩
      have hle := (h.adds.bit x hbit).2
      rcases h.tail.source x hx with hown | hcarried | hnew
      · exact h.bit_notMem_flatten hbit hown
      · exact h.bit_notMem_carries hbit hcarried
      · omega

end Separate

/-- The output has the bits of the columns and new variables. -/
theorem nodup_pinOutput {c : Circuit} (product : ℕ) {bits : List (Option Int)}
    (hbits : ∀ x ∈ bits.reduceOption, x ≤ c.size) (hnodup : bits.reduceOption.Nodup) :
    (pinOutput c product bits).1.Nodup ∧
      ∀ x ∈ (pinOutput c product bits).1, x ∈ bits.reduceOption ∨ c.size < x := by
  induction bits generalizing c product with
  | nil => exact ⟨List.nodup_nil, by simp [pinOutput]⟩
  | cons b rest ih =>
    rw [pinOutput_cons, List.nodup_cons, List.forall_mem_cons]
    generalize hpinned : (standIn c b).2.add (pin (standIn c b).1 (product % 2 = 1)) = d
    have hsize : d.size = (standIn c b).2.size := hpinned ▸ rfl
    cases b with
    | none =>
      have hnew : (standIn c none).1 = c.size + 1 := rfl
      have hnext : (standIn c none).2.size = c.size + 1 := rfl
      rw [List.reduceOption_cons_of_none] at hbits hnodup ⊢
      have hbelow : ∀ x ∈ rest.reduceOption, x ≤ d.size := by
        intro x hx
        have hle := hbits x hx
        omega
      obtain ⟨hdistinct, hfrom⟩ := ih (product / 2) hbelow hnodup
      refine ⟨⟨fun hx => ?_, hdistinct⟩, .inr (by omega), fun x hx => ?_⟩
      · rcases hfrom _ hx with hold | hbeyond
        · have hle := hbits _ hold
          omega
        · omega
      · exact (hfrom x hx).imp_right (by omega)
    | some x =>
      have hsame : (standIn c (some x)).1 = x := rfl
      have hnext : (standIn c (some x)).2.size = c.size := rfl
      rw [List.reduceOption_cons_of_some] at hbits hnodup ⊢
      rw [List.forall_mem_cons] at hbits
      rw [List.nodup_cons] at hnodup
      rw [← hnext, ← hsize] at hbits ⊢
      obtain ⟨hdistinct, hfrom⟩ := ih (product / 2) hbits.2 hnodup.2
      rw [hsame]
      refine ⟨⟨fun hx => ?_, hdistinct⟩, .inl List.mem_cons_self, fun y hy => ?_⟩
      · rcases hfrom x hx with hold | hbeyond
        · exact hnodup.1 hold
        · have hle := hbits.1
          omega
      · exact (hfrom y hy).imp_left (List.mem_cons_of_mem x)

/-- A column with a bit gives it to the output. -/
theorem getElem?_pinOutput {c : Circuit} {product : ℕ} {bits : List (Option Int)} {k : ℕ} {x : Int}
    (h : bits[k]? = some (some x)) : (pinOutput c product bits).1[k]? = some x := by
  induction bits generalizing c product k with
  | nil => cases h
  | cons b rest ih =>
    rw [pinOutput_cons]
    cases k with
    | zero =>
      cases h
      rfl
    | succ k => exact ih h

/-- The rows of the partial products of two numbers, after the variables of the numbers. -/
def partialProducts (n m : ℕ) : List (List Int) × Circuit :=
  productRows (newVars (newVars Circuit.empty n).2 m).2 (newVars (newVars Circuit.empty n).2 m).1
    (newVars Circuit.empty n).1

/-- What is left of the columns of the partial products when they are added up. -/
def columnBits (n m : ℕ) : List (Option Int) × Circuit :=
  addColumns (partialProducts n m).2 [] (columns (n + m) (partialProducts n m).1)

/-- The columns of the partial products, added up one after another. -/
def productSums (n m : ℕ) : List ColumnSum :=
  columnSums (partialProducts n m).2 [] (columns (n + m) (partialProducts n m).1)

theorem build_output (product n m : ℕ) (nontrivial : Bool) :
    (build product n m nontrivial).layout.output =
      (pinOutput (columnBits n m).2 product ((columnBits n m).1.take (n + m))).1.reverse := rfl

section Fit

variable {n m : ℕ}

theorem rowsOf_partialProducts (n m : ℕ) :
    RowsOf (newVars (newVars Circuit.empty n).2 m).2 (newVars Circuit.empty n).1
      (newVars (newVars Circuit.empty n).2 m).1 (partialProducts n m).1 (partialProducts n m).2 :=
  (inputs_newVars n m).products

theorem fresh_flatten_columns (n m : ℕ) :
    Fresh 0 (partialProducts n m).2.size (columns (n + m) (partialProducts n m).1).flatten := by
  have hrows := rowsOf_partialProducts n m
  have hperm := flatten_column_perm ((inputs_newVars n m).places hrows)
  rw [List.flatMap_def, ← columns_eq] at hperm
  refine ⟨hperm.nodup_iff.2 hrows.fresh.nodup, fun x hx => ?_⟩
  obtain ⟨hlow, hhigh⟩ := hrows.fresh.between x (hperm.mem_iff.1 hx)
  constructor <;> omega

theorem length_productSums (n m : ℕ) : (productSums n m).length = n + m := by
  rw [productSums, length_columnSums, columns_eq, List.length_map, List.length_range]

/-- How many carries leave the column at index `k`, and when it has no bit. -/
theorem productSums_getElem? {k : ℕ} {s : ColumnSum} (hs : (productSums n m)[k]? = some s) :
    s.carries.length = carriesInto (productsAt n m) (k + 1) ∧
      (s.bit = none ↔ productsAt n m k + carriesInto (productsAt n m) k = 0) := by
  have hrows := rowsOf_partialProducts n m
  have hin := inputs_newVars n m
  have hcolumns : ∀ i bits, (columns (n + m) (partialProducts n m).1)[i]? = some bits →
      bits.length = productsAt n m (0 + i) := by
    intro i bits hbits
    rw [columns_eq, List.getElem?_map] at hbits
    obtain ⟨j, hj, rfl⟩ := Option.map_eq_some_iff.1 hbits
    obtain ⟨-, rfl⟩ := List.getElem?_eq_some_iff.1 hj
    rw [List.getElem_range, Nat.zero_add]
    exact length_column_zero (hrows.length.trans hin.lengths.1)
      (fun row hrow => (hrows.lengths row hrow).trans hin.lengths.2) i
  have hresult := columnSums_getElem? (f := productsAt n m) (k := 0) rfl hcolumns hs
  rwa [Nat.zero_add] at hresult

/-- No carry leaves the last column. -/
theorem carries_last (hn : 1 ≤ n) :
    (productSums n m).getLast?.map ColumnSum.carries = some [] := by
  have hlength := length_productSums n m
  obtain ⟨k, hk⟩ : ∃ k, k + 1 = n + m := ⟨n + m - 1, by omega⟩
  have hs := List.getElem?_eq_getElem (by omega : k < (productSums n m).length)
  have hcarries := (productSums_getElem? hs).1
  rw [carriesInto_last n m hk] at hcarries
  rw [List.getLast?_eq_getElem?, hlength, ← hk, Nat.add_sub_cancel, hs, Option.map_some,
    List.eq_nil_of_length_eq_zero hcarries]

theorem overflow_productSums (hn : 1 ≤ n) : overflow [] (productSums n m) = [] := by
  rw [overflow, carries_last hn]
  rfl

theorem columnBits_eq (hn : 1 ≤ n) :
    (columnBits n m).1 = (productSums n m).map ColumnSum.bit :=
  bits_addColumns (overflow_productSums hn)

theorem length_columnBits (hn : 1 ≤ n) : (columnBits n m).1.length = n + m := by
  rw [columnBits_eq hn, List.length_map, length_productSums]

theorem columnBits_eq_none_iff (hn : 1 ≤ n) (hm : 1 ≤ m) (k : ℕ) :
    (columnBits n m).1[k]? = some none ↔ k + 1 = n + m ∧ min n m = 1 := by
  rw [columnBits_eq hn, List.getElem?_map, Option.map_eq_some_iff]
  have hlength := length_productSums n m
  constructor
  · intro hexists
    obtain ⟨s, hs, hbit⟩ := hexists
    obtain ⟨hk, -⟩ := List.getElem?_eq_some_iff.1 hs
    exact (height_eq_zero_iff hn hm (hlength ▸ hk)).1 ((productSums_getElem? hs).2.1 hbit)
  · intro hboth
    have hk : k < (productSums n m).length := by omega
    have hs := List.getElem?_eq_getElem hk
    exact ⟨_, hs, (productSums_getElem? hs).2.2 ((height_eq_zero_iff hn hm (hlength ▸ hk)).2 hboth)⟩

theorem nodup_columnBits (hn : 1 ≤ n) : (columnBits n m).1.reduceOption.Nodup := by
  rw [columnBits_eq hn, List.reduceOption, List.filterMap_map]
  exact Separate.nodup_bits ⟨(rowsOf_partialProducts n m).circuit.wellFormed, le_rfl,
    Fresh.nil _ _, fresh_flatten_columns n m⟩

theorem addsColumns_columnBits (n m : ℕ) :
    AddsColumns (partialProducts n m).2 [] (columns (n + m) (partialProducts n m).1)
      (columnBits n m).1 (columnBits n m).2 := by
  have hrows := rowsOf_partialProducts n m
  exact addColumns_addsColumns hrows.circuit.wellFormed le_rfl (Fresh.nil _ _)
    (fresh_columns hrows.fresh (n + m))

theorem le_size_of_mem_columnBits {x : Int} (hx : x ∈ (columnBits n m).1.reduceOption) :
    x ≤ (columnBits n m).2.size := by
  obtain ⟨b, hb, hbx⟩ := List.mem_filterMap.1 hx
  exact ((addsColumns_columnBits n m).bit x (hbx ▸ hb)).2

/-- The output has a variable for each of the column bits. -/
theorem length_pinOutput_columnBits (n m product : ℕ) :
    (pinOutput (columnBits n m).2 product (columnBits n m).1).1.length = (columnBits n m).1.length :=
  (pinOutput_pinsOutput (addsColumns_columnBits n m).circuit.wellFormed product
    (addsColumns_columnBits n m).bit).length

end Fit

/-- The columns of a multiplication are added up without a further one: there are as many as the
output has bits, and no carry leaves the last. Only that one can be without a bit, and it is if
one of the numbers has a single bit. The output takes the bits of the columns, all distinct. -/
theorem columns_fit {n m : ℕ} (hn : 1 ≤ n) (hm : 1 ≤ m) (product : ℕ) (nontrivial : Bool) :
    (columnBits n m).1.length = n + m ∧
      (productSums n m).length = n + m ∧
      (columnBits n m).1 = (productSums n m).map ColumnSum.bit ∧
      (productSums n m).getLast?.map ColumnSum.carries = some [] ∧
      (∀ k : ℕ, (columnBits n m).1[k]? = some none ↔ k + 1 = n + m ∧ min n m = 1) ∧
      (∀ (k : ℕ) (x : Int), (columnBits n m).1[k]? = some (some x) →
        (build product n m nontrivial).layout.output.reverse[k]? = some x) ∧
      (build product n m nontrivial).layout.output.length = n + m ∧
      (build product n m nontrivial).layout.output.Nodup := by
  have hlength := length_columnBits (m := m) hn
  have htake : (columnBits n m).1.take (n + m) = (columnBits n m).1 :=
    List.take_of_length_le hlength.le
  obtain ⟨hnodup, -⟩ := nodup_pinOutput product (fun x => le_size_of_mem_columnBits)
    (nodup_columnBits (m := m) hn)
  have houtput : (build product n m nontrivial).layout.output.reverse =
      (pinOutput (columnBits n m).2 product (columnBits n m).1).1 := by
    rw [build_output, htake, List.reverse_reverse]
  have hwidth : (build product n m nontrivial).layout.output.length = n + m := by
    rw [← List.length_reverse, houtput, length_pinOutput_columnBits, hlength]
  refine ⟨hlength, length_productSums n m, columnBits_eq hn, carries_last hn,
    columnBits_eq_none_iff hn hm, ?_, hwidth, ?_⟩
  · intro k x hk
    rw [houtput]
    exact getElem?_pinOutput hk
  · rw [← List.nodup_reverse, houtput]
    exact hnodup

theorem columns_fit_two_one :
    (columnBits 2 1).1[2]? = some none ∧ (build 2 2 1 false).layout.output.Nodup := by
  obtain ⟨-, -, -, -, hempty, -, -, hdistinct⟩ :=
    columns_fit (n := 2) (m := 1) (by decide) (by decide) 2 false
  exact ⟨(hempty 2).2 ⟨rfl, rfl⟩, hdistinct⟩

end Multiplier

end FactorSearch
