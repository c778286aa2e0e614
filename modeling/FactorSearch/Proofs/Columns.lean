import FactorSearch.Multiplier
import FactorSearch.Proofs.Gates

/-!
Adding up columns. The bit that is left of a column and twice its carries weigh as much
as the column. Carries are newer than all columns, so no bit is taken twice. The bits of
all columns, read as a binary number, therefore weigh as much as the columns. A column
has at most half as many carries as bits, which bounds the number of adders.
-/

namespace FactorSearch

open Circuit FactorSearch.Valuation

namespace Multiplier

/-- What adding up a column guarantees. -/
structure ColumnSum.Adds (s : ColumnSum) (c : Circuit) (column : List Int) : Prop where
  circuit : c.Extends s.circuit
  bit : ∀ x ∈ s.bit, s.circuit.Has x
  /-- The bit that is left was in the column or is new, and it is not carried as well. -/
  source : ∀ x ∈ s.bit, x ∈ column ∨ c.size < x ∧ x ∉ s.carries
  fresh : Fresh c.size s.circuit.size s.carries
  size : s.circuit.size = c.size + 2 * s.carries.length
  length : 2 * s.carries.length ≤ column.length
  weight : ∀ v : Valuation, v.Models s.circuit.clauses →
    v.bit s.bit + 2 * v.count s.carries = v.count column

section Adders

variable {c d : Circuit} {inputs rest : List Int} {a : Adder}

theorem has_sum (ha : c.Adds inputs a d) : d.Has a.sum := by
  have hsize := ha.size
  have hsum := ha.sum
  constructor <;> omega

theorem fresh_carry (ha : c.Adds inputs a d) : Fresh c.size d.size [a.carry] := by
  have hsize := ha.size
  have hcarry := ha.carry
  apply Fresh.singleton <;> omega

theorem sum_ne_carry (ha : c.Adds inputs a d) : a.sum ≠ a.carry := by
  rw [ha.sum, ha.carry]
  omega

theorem sum_notMem (ha : c.Adds inputs a d) (hrest : ∀ x ∈ rest, c.Has x) : a.sum ∉ rest := by
  intro hmem
  have hold := (hrest a.sum hmem).2
  have hsum := ha.sum
  omega

/-- An adder that takes a whole column. -/
theorem adds_adder (ha : c.Adds inputs a d) (hinputs : 2 ≤ inputs.length) :
    ColumnSum.Adds ⟨some a.sum, [a.carry], d⟩ c inputs where
  circuit := ha.circuit
  bit x hx := by
    obtain rfl := Option.mem_some.1 hx
    exact has_sum ha
  source x hx := by
    obtain rfl := Option.mem_some.1 hx
    have hsum := ha.sum
    exact .inr ⟨by omega, fun hmem => sum_ne_carry ha (List.mem_singleton.1 hmem)⟩
  fresh := fresh_carry ha
  size := ha.size
  length := hinputs
  weight v hv := by
    rw [count_cons, count_nil]
    exact ha.weight v hv

/-- An adder that takes three bits of a column and gives its sum back to it. -/
theorem ColumnSum.Adds.cons {s : ColumnSum} (h : s.Adds d (rest ++ [a.sum]))
    (ha : c.Adds inputs a d) (hinputs : 3 ≤ inputs.length) :
    ColumnSum.Adds { s with carries := a.carry :: s.carries } c (inputs ++ rest) where
  circuit := ha.circuit.trans h.circuit
  bit := h.bit
  source x hx := by
    have hsize := ha.size
    have hsum := ha.sum
    have hcarry := ha.carry
    rcases h.source x hx with hold | ⟨hnew, hnotMem⟩
    · rcases List.mem_append.1 hold with hrest | hmem
      · exact .inl (List.mem_append_right _ hrest)
      · obtain rfl := List.mem_singleton.1 hmem
        refine .inr ⟨by omega, List.not_mem_cons_of_ne_of_not_mem (sum_ne_carry ha) fun hlater => ?_⟩
        have hbetween := h.fresh.between a.sum hlater
        omega
    · exact .inr ⟨by omega, List.not_mem_cons_of_ne_of_not_mem (by omega) hnotMem⟩
  fresh := (fresh_carry ha).append h.fresh ha.circuit.size_le h.circuit.size_le
  size := by
    have hadder := ha.size
    have hcount := h.size
    show s.circuit.size = c.size + 2 * (s.carries.length + 1)
    omega
  length := by
    have hlength := h.length
    rw [List.length_append, List.length_singleton] at hlength
    rw [List.length_cons, List.length_append]
    omega
  weight v hv := by
    have hadder := ha.weight v (h.circuit.models hv)
    have hlater := h.weight v hv
    simp only [count_append, count_cons, count_nil] at hlater ⊢
    omega

end Adders

theorem addColumn_adds {c : Circuit} {column : List Int} (hc : c.WellFormed)
    (hhas : ∀ x ∈ column, c.Has x) (hnodup : column.Nodup) :
    (addColumn c column).Adds c column := by
  fun_induction addColumn c column with
  | case1 c => exact ⟨Extends.refl hc, by simp, by simp, Fresh.nil _ _, rfl, by simp, by simp [bit]⟩
  | case2 c x =>
    exact ⟨Extends.refl hc, by simpa using hhas, by simp, Fresh.nil _ _, rfl, by simp,
      by simp [bit]⟩
  | case3 c x y a d had =>
    simp only [List.forall_mem_cons] at hhas
    obtain ⟨hx, hy, -⟩ := hhas
    have hadds := adds_halfAdder hc hx hy (by simpa using hnodup)
    rw [had] at hadds
    exact adds_adder hadds le_rfl
  | case4 c x y z rest a d had s ih =>
    simp only [List.forall_mem_cons] at hhas
    obtain ⟨hx, hy, hz, hrest⟩ := hhas
    have hadds := adds_fullAdder hc hx hy hz (hnodup.sublist (by simp))
    rw [had] at hadds
    have hcolumn : ∀ w ∈ rest ++ [a.sum], d.Has w := by
      rw [List.forall_mem_append, List.forall_mem_singleton]
      exact ⟨fun w hw => hadds.circuit.has (hrest w hw), has_sum hadds⟩
    have hdistinct : (rest ++ [a.sum]).Nodup := by
      have hrestNodup : rest.Nodup := hnodup.of_cons.of_cons.of_cons
      apply hrestNodup.append (List.nodup_singleton _)
      exact List.disjoint_singleton.2 (sum_notMem hadds hrest)
    have hlater : s.Adds d (rest ++ [a.sum]) := ih hadds.circuit.wellFormed hcolumn hdistinct
    exact hlater.cons hadds le_rfl

/-- What adding up columns guarantees. -/
structure AddsColumns (c : Circuit) (carries : List Int) (columns : List (List Int))
    (bits : List (Option Int)) (d : Circuit) : Prop where
  circuit : c.Extends d
  bit : ∀ x, some x ∈ bits → d.Has x
  length : columns.length ≤ bits.length
  size : d.size ≤ c.size + 2 * (carries.length + columns.flatten.length)
  weight : ∀ v : Valuation, v.Models d.clauses →
    v.binary bits = v.count carries + v.weight columns

/-- One column and then the others. -/
theorem ColumnSum.Adds.addsColumns {s : ColumnSum} {c d : Circuit} {carries column : List Int}
    {columns : List (List Int)} {bits : List (Option Int)} (h : s.Adds c (column ++ carries))
    (hrest : AddsColumns s.circuit s.carries columns bits d) :
    AddsColumns c carries (column :: columns) (s.bit :: bits) d where
  circuit := h.circuit.trans hrest.circuit
  bit x hx := by
    rcases List.mem_cons.1 hx with hfirst | hlater
    · exact hrest.circuit.has (h.bit x hfirst.symm)
    · exact hrest.bit x hlater
  length := Nat.succ_le_succ hrest.length
  size := by
    have hadders := h.size
    have hcarries := h.length
    have hlater := hrest.size
    rw [List.length_append] at hcarries
    rw [List.flatten_cons, List.length_append]
    omega
  weight v hv := by
    have hcolumn := h.weight v (hrest.circuit.models hv)
    have hlater := hrest.weight v hv
    rw [count_append] at hcolumn
    rw [binary_cons, weight_cons, hlater]
    omega

theorem addColumns_addsColumns {c : Circuit} {carries : List Int} {columns : List (List Int)}
    {base : ℕ} (hc : c.WellFormed) (hbase : base ≤ c.size) (hcarries : Fresh base c.size carries)
    (hcolumns : ∀ column ∈ columns, Fresh 0 base column) :
    AddsColumns c carries columns (addColumns c carries columns).1
      (addColumns c carries columns).2 := by
  fun_induction addColumns c carries columns with
  | case1 c carries column rest s bits d hd ih =>
    rw [List.forall_mem_cons] at hcolumns
    obtain ⟨hcolumn, hrest⟩ := hcolumns
    have hfresh := hcolumn.append hcarries (Nat.zero_le _) hbase
    have hadds : s.Adds c (column ++ carries) :=
      addColumn_adds hc (fun x hx => hfresh.between x hx) hfresh.nodup
    have hlater := ih hadds.circuit.wellFormed (hbase.trans hadds.circuit.size_le)
      (hadds.fresh.mono hbase le_rfl) hrest
    simp only [hd] at hlater
    exact hadds.addsColumns hlater
  | case2 c => exact ⟨Extends.refl hc, by simp, Nat.zero_le _, by simp, fun v hv => by simp⟩
  | case3 c carries hne hlt s bits d hd ih =>
    have hfresh := hcarries.mono (Nat.zero_le _) le_rfl
    have hadds : s.Adds c ([] ++ carries) :=
      addColumn_adds hc (fun x hx => hfresh.between x hx) hfresh.nodup
    have hlater := ih hadds.circuit.wellFormed (hbase.trans hadds.circuit.size_le)
      (hadds.fresh.mono hbase le_rfl) hcolumns
    simp only [hd] at hlater
    obtain ⟨hcircuit, hbit, -, hsize, hweight⟩ := hadds.addsColumns hlater
    exact ⟨hcircuit, hbit, Nat.zero_le _, hsize, hweight⟩

end Multiplier

end FactorSearch
