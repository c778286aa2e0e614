import FactorSearch.Proofs.PinnedOutput

/-!
The circuit of a multiplication encodes exactly the multiplication. The inputs are free,
the partial products and adders continue them in one way, and what the columns add up to
is the product of the inputs. Pinning the output then leaves the inputs with the given
product: nothing is lost, since the columns beyond the output are zero and the product
fits in it.
-/

namespace FactorSearch

open Circuit FactorSearch.Valuation

namespace Multiplier

/-- What the circuit of a multiplication guarantees. -/
structure Encodes (M : Multiplier) (product n m : ℕ) (nontrivial : Bool) : Prop where
  wellFormed : M.circuit.WellFormed
  length : M.layout.first.length = n ∧ M.layout.second.length = m ∧
    M.layout.output.length = n + m
  has : ∀ o, ∀ x ∈ M.layout.bits o, M.circuit.Has x
  occurs : 0 < n → 0 < m → ∀ o, ∀ x ∈ M.layout.bits o, M.circuit.Occurs x
  size : M.circuit.size ≤ (n + m) + n * m + 2 * ((n + m) * n) + (n + m)
  holds : ∀ v : Valuation, v.Models M.circuit.clauses →
    v.number M.layout.first * v.number M.layout.second = product ∧
    (nontrivial = true → 2 ≤ v.number M.layout.first ∧ 2 ≤ v.number M.layout.second) ∧
    v.number M.layout.output = product
  exists_models : ∀ a b : ℕ, a < 2 ^ n → b < 2 ^ m → a * b = product →
    (nontrivial = true → 2 ≤ a ∧ 2 ≤ b) →
    ∃ v : Valuation, v.Models M.circuit.clauses ∧ v.number M.layout.first = a ∧
      v.number M.layout.second = b
  unique : ∀ v w : Valuation, v.Models M.circuit.clauses → w.Models M.circuit.clauses →
    v.number M.layout.first = w.number M.layout.first →
    v.number M.layout.second = w.number M.layout.second → v.AgreeUpTo w M.circuit.size

/-- The input variables, all free. -/
structure Inputs (n m : ℕ) (a b : List Int) (c : Circuit) : Prop where
  clauses : c.clauses = []
  size : c.size = n + m
  lengths : a.length = n ∧ b.length = m
  fresh : Fresh 0 c.size (a ++ b)
  covers : ∀ x, c.Has x → x ∈ a ++ b

theorem inputs_newVars (n m : ℕ) :
    Inputs n m (newVars Circuit.empty n).1 (newVars (newVars Circuit.empty n).2 m).1
      (newVars (newVars Circuit.empty n).2 m).2 := by
  have hlength : ∀ c : Circuit, ∀ k, (newVars c k).1.length = k :=
    fun c k => by rw [newVars_eq, List.length_map, List.length_range]
  have hclauses : ∀ c : Circuit, ∀ k, (newVars c k).2.clauses = c.clauses :=
    fun c k => by rw [newVars_eq]; rfl
  have hempty : Circuit.empty.size = 0 := rfl
  refine ⟨?_, ?_, ⟨hlength _ _, hlength _ _⟩, ?_, ?_⟩
  · rw [hclauses, hclauses]
    rfl
  · rw [size_newVars, size_newVars]
    omega
  · apply (fresh_newVars Circuit.empty n).append (fresh_newVars _ m) (Nat.zero_le _)
    rw [size_newVars _ m]
    omega
  · intro x hboth
    obtain ⟨hpos, hle⟩ := hboth
    rw [size_newVars, size_newVars] at hle
    rw [List.mem_append, mem_newVars, mem_newVars, size_newVars]
    omega

/-- The stages of a multiplier: inputs, partial products, their sum, the pinned output. -/
structure Stages (product n m : ℕ) (a b vars : List Int) (rows : List (List Int))
    (bits : List (Option Int)) (c₀ c₁ c₂ c₃ : Circuit) : Prop where
  inputs : Inputs n m a b c₀
  products : RowsOf c₀ a b rows c₁
  sums : AddsColumns c₁ [] (columns (n + m) rows) bits c₂
  pinned : PinsOutput c₂ product (bits.take (n + m)) vars c₃

namespace Inputs

variable {n m : ℕ} {a b : List Int} {c : Circuit}

/-- The inputs can have any two values that fit. -/
theorem exists_models (h : Inputs n m a b c) {x y : ℕ} (hx : x < 2 ^ n) (hy : y < 2 ^ m) :
    ∃ v : Valuation, v.Models c.clauses ∧ v.value a = x ∧ v.value b = y := by
  rw [← h.lengths.1] at hx
  rw [← h.lengths.2] at hy
  obtain ⟨u, hu, -⟩ := exists_value (fun _ => false) h.fresh.left.nodup hx
  obtain ⟨v, hv, hother⟩ := exists_value u h.fresh.right.nodup hy
  refine ⟨v, ?_, ?_, hv⟩
  · rw [h.clauses]
    exact List.forall_mem_nil _
  · rw [← hu]
    exact value_congr (fun z hz => hother z (fun hz' => h.fresh.disjoint hz hz'))

theorem agree (h : Inputs n m a b c) {v w : Valuation} (ha : v.value a = w.value a)
    (hb : v.value b = w.value b) : v.AgreeUpTo w c.size := by
  intro x hpos hle
  rcases List.mem_append.1 (h.covers x ⟨hpos, hle⟩) with hx | hx
  · exact eq_of_value_eq ha x hx
  · exact eq_of_value_eq hb x hx

/-- The partial products of the inputs. -/
theorem products (h : Inputs n m a b c) :
    RowsOf c a b (productRows c b a).1 (productRows c b a).2 := by
  apply productRows_rowsOf
  · unfold WellFormed
    rw [h.clauses]
    exact List.forall_mem_nil _
  · exact fun x hx => ⟨h.fresh.left.between x hx, fun hx' => h.fresh.disjoint hx hx'⟩
  · exact fun y hy => h.fresh.right.between y hy

/-- The columns are enough for the rows of the partial products. -/
theorem places (h : Inputs n m a b c) {rows : List (List Int)} {d : Circuit}
    (hrows : RowsOf c a b rows d) : ∀ row ∈ rows, 0 + rows.length + row.length ≤ n + m + 1 := by
  intro row hrow
  rw [hrows.length, hrows.lengths row hrow, h.lengths.1, h.lengths.2]
  omega

end Inputs

namespace Stages

variable {product n m : ℕ} {nontrivial : Bool} {a b vars : List Int} {rows : List (List Int)}
  {bits : List (Option Int)} {c₀ c₁ c₂ c₃ : Circuit}

theorem width_le (h : Stages product n m a b vars rows bits c₀ c₁ c₂ c₃) : n + m ≤ bits.length := by
  have hlength := h.sums.length
  rwa [columns_eq, List.length_map, List.length_range] at hlength

theorem free (h : Stages product n m a b vars rows bits c₀ c₁ c₂ c₃) : c₀.Extends c₂ :=
  h.products.circuit.trans h.sums.circuit

/-- The columns of the partial products add up to the product of the inputs. -/
theorem binary_bits (h : Stages product n m a b vars rows bits c₀ c₁ c₂ c₃) {v : Valuation}
    (hv : v.Models c₂.clauses) : v.binary bits = v.value a * v.value b := by
  have hweight := h.sums.weight v hv
  rw [count_nil, columns_eq, weight_column v (h.inputs.places h.products),
    h.products.value v (h.sums.circuit.models hv)] at hweight
  omega

theorem narrows_close (h : Stages product n m a b vars rows bits c₀ c₁ c₂ c₃)
    (hwide : nontrivial = true → 2 ≤ n ∧ 2 ≤ m) :
    c₃.Narrows (fun v => v.binary (bits.drop (n + m)) = 0 ∧
        (nontrivial = true → 2 ≤ v.value a ∧ 2 ≤ v.value b))
      (close nontrivial c₃ (bits.drop (n + m)) a b) := by
  have hle := h.free.size_le.trans h.pinned.circuit.size_le
  rw [← h.inputs.lengths.1, ← h.inputs.lengths.2] at hwide
  apply Multiplier.narrows_close h.pinned.circuit.wellFormed _
    (h.inputs.fresh.left.mono le_rfl hle) (h.inputs.fresh.right.mono le_rfl hle) hwide
  intro x hx
  exact h.pinned.circuit.has (h.sums.bit x (List.mem_of_mem_drop hx))

/-- Pinning the output leaves the models in which the columns add up to the product. -/
theorem narrows_output (h : Stages product n m a b vars rows bits c₀ c₁ c₂ c₃)
    (hproduct : product < 2 ^ (n + m)) (hwide : nontrivial = true → 2 ≤ n ∧ 2 ≤ m) :
    c₂.Narrows
      (fun v => v.binary bits = product ∧ (nontrivial = true → 2 ≤ v.value a ∧ 2 ≤ v.value b))
      (close nontrivial c₃ (bits.drop (n + m)) a b) := by
  have hdrop : ∀ x, some x ∈ bits.drop (n + m) → c₂.Has x :=
    fun x hx => h.sums.bit x (List.mem_of_mem_drop hx)
  have hlocal : Local (fun v => v.binary (bits.drop (n + m)) = 0 ∧
      (nontrivial = true → 2 ≤ v.value a ∧ 2 ≤ v.value b)) c₂ := by
    intro v w hvw hv
    rw [← value_eq_of_agree (h.inputs.fresh.left.mono le_rfl h.free.size_le) hvw,
      ← value_eq_of_agree (h.inputs.fresh.right.mono le_rfl h.free.size_le) hvw]
    exact ⟨local_binary hdrop 0 v w hvw hv.1, hv.2⟩
  apply (h.pinned.circuit.trans (h.narrows_close hwide) hlocal).congr
  intro v hv
  rw [binary_eq_iff h.width_le hproduct v, and_assoc]

theorem size_le (h : Stages product n m a b vars rows bits c₀ c₁ c₂ c₃) :
    c₃.size ≤ (n + m) + n * m + 2 * ((n + m) * n) + (n + m) := by
  have hcolumns := length_flatten_columns_le (n + m) rows
  have hinputs := h.inputs.size
  have hproducts := h.products.size
  have hadders := h.sums.size
  have hpinned := h.pinned.size
  rw [h.inputs.lengths.1, h.inputs.lengths.2] at hproducts
  rw [h.products.length, h.inputs.lengths.1] at hcolumns
  rw [List.length_nil, Nat.zero_add] at hadders
  rw [List.length_take_of_le h.width_le] at hpinned
  omega

/-- Every input variable occurs: it is multiplied with a bit of the other factor. -/
theorem occurs_inputs (h : Stages product n m a b vars rows bits c₀ c₁ c₂ c₃) (hn : 0 < n)
    (hm : 0 < m) : (∀ x ∈ a, c₂.Occurs x) ∧ ∀ y ∈ b, c₂.Occurs y := by
  rw [← h.inputs.lengths.1] at hn
  rw [← h.inputs.lengths.2] at hm
  obtain ⟨x₀, hx₀⟩ := List.exists_mem_of_length_pos hn
  obtain ⟨y₀, hy₀⟩ := List.exists_mem_of_length_pos hm
  constructor
  · intro x hx
    exact h.sums.circuit.occurs (h.products.occurs x hx y₀ hy₀).1
  · intro y hy
    exact h.sums.circuit.occurs (h.products.occurs x₀ hx₀ y hy).2

/-- A model multiplies the inputs to the product, which is also what the output says. -/
theorem holds (h : Stages product n m a b vars rows bits c₀ c₁ c₂ c₃)
    (hproduct : product < 2 ^ (n + m)) (hwide : nontrivial = true → 2 ≤ n ∧ 2 ≤ m)
    {v : Valuation} (hv : v.Models (close nontrivial c₃ (bits.drop (n + m)) a b).clauses) :
    v.value a * v.value b = product ∧ (nontrivial = true → 2 ≤ v.value a ∧ 2 ≤ v.value b) ∧
      v.value vars = product := by
  obtain ⟨hbits, hnontrivial⟩ := (h.narrows_output hproduct hwide).holds v hv
  have hpinned := (h.narrows_close hwide).models hv
  obtain ⟨hlow, -⟩ := (binary_eq_iff h.width_le hproduct v).1 hbits
  rw [List.length_take_of_le h.width_le, Nat.mod_eq_of_lt hproduct] at hlow
  refine ⟨?_, hnontrivial, ?_⟩
  · rw [← h.binary_bits (h.pinned.circuit.models hpinned), hbits]
  · rw [h.pinned.value v hpinned, hlow]

/-- Every pair of factors that fits is found: it determines the other variables. -/
theorem exists_models (h : Stages product n m a b vars rows bits c₀ c₁ c₂ c₃)
    (hproduct : product < 2 ^ (n + m)) (hwide : nontrivial = true → 2 ≤ n ∧ 2 ≤ m) {x y : ℕ}
    (hx : x < 2 ^ n) (hy : y < 2 ^ m) (hxy : x * y = product)
    (hnontrivial : nontrivial = true → 2 ≤ x ∧ 2 ≤ y) :
    ∃ v : Valuation, v.Models (close nontrivial c₃ (bits.drop (n + m)) a b).clauses ∧
      v.value a = x ∧ v.value b = y := by
  have hfirst := h.inputs.fresh.left
  have hsecond := h.inputs.fresh.right
  obtain ⟨u, hu, hua, hub⟩ := h.inputs.exists_models hx hy
  -- the partial products and the adders continue the inputs
  obtain ⟨v, hv, hvu⟩ := h.free.exists_models u hu trivial
  have hva : v.value a = x := (value_eq_of_agree hfirst hvu).trans hua
  have hvb : v.value b = y := (value_eq_of_agree hsecond hvu).trans hub
  have hbits : v.binary bits = product := by
    rw [h.binary_bits hv, hva, hvb, hxy]
  have htrivial : nontrivial = true → 2 ≤ v.value a ∧ 2 ≤ v.value b := by
    rw [hva, hvb]
    exact hnontrivial
  -- so the pins hold, and they add only stand-ins that are zero
  obtain ⟨w, hw, hwv⟩ := (h.narrows_output hproduct hwide).exists_models v hv ⟨hbits, htrivial⟩
  refine ⟨w, hw, ?_, ?_⟩
  · rw [value_eq_of_agree (hfirst.mono le_rfl h.free.size_le) hwv, hva]
  · rw [value_eq_of_agree (hsecond.mono le_rfl h.free.size_le) hwv, hvb]

theorem encodes (h : Stages product n m a b vars rows bits c₀ c₁ c₂ c₃)
    (hproduct : product < 2 ^ (n + m)) (hwide : nontrivial = true → 2 ≤ n ∧ 2 ≤ m) :
    Encodes ⟨close nontrivial c₃ (bits.drop (n + m)) a b, ⟨vars.reverse, a.reverse, b.reverse⟩⟩
      product n m nontrivial := by
  have hout := h.narrows_output hproduct hwide
  have hclose := h.narrows_close hwide
  have hvars : vars.length = n + m := by
    rw [h.pinned.length, List.length_take_of_le h.width_le]
  constructor
  case wellFormed => exact hout.wellFormed
  case length => simpa using ⟨h.inputs.lengths.1, h.inputs.lengths.2, hvars⟩
  case has =>
    intro o x hx
    have hhas := fun hx' => hout.has (h.free.has (h.inputs.fresh.between x hx'))
    cases o with
    | output => exact hclose.has (h.pinned.has x (List.mem_reverse.1 hx))
    | first => exact hhas (List.mem_append_left _ (List.mem_reverse.1 hx))
    | second => exact hhas (List.mem_append_right _ (List.mem_reverse.1 hx))
  case occurs =>
    intro hn hm o x hx
    obtain ⟨hfirst, hsecond⟩ := h.occurs_inputs hn hm
    cases o with
    | output => exact hclose.occurs (h.pinned.occurs x (List.mem_reverse.1 hx))
    | first => exact hout.occurs (hfirst x (List.mem_reverse.1 hx))
    | second => exact hout.occurs (hsecond x (List.mem_reverse.1 hx))
  case size =>
    rw [size_close]
    exact h.size_le
  case holds =>
    intro v hv
    simp only [number, List.reverse_reverse]
    exact h.holds hproduct hwide hv
  case exists_models =>
    intro x y hx hy hxy hnontrivial
    simp only [number, List.reverse_reverse]
    exact h.exists_models hproduct hwide hx hy hxy hnontrivial
  case unique =>
    intro v w hv hw hfirst hsecond
    simp only [number, List.reverse_reverse] at hfirst hsecond
    have hinputs := h.inputs.agree hfirst hsecond
    exact hout.unique v w hv hw (h.free.unique v w (hout.models hv) (hout.models hw) hinputs)

end Stages

theorem fresh_columns {low high : ℕ} {rows : List (List Int)} (h : Fresh low high rows.flatten)
    (width : ℕ) : ∀ bits ∈ columns width rows, Fresh 0 high bits := by
  intro bits hbits
  rw [columns_eq] at hbits
  obtain ⟨k, -, rfl⟩ := List.mem_map.1 hbits
  refine ⟨nodup_column h.nodup 0 k, fun x hx => ?_⟩
  obtain ⟨hlow, hhigh⟩ := h.between x (column_subset 0 k rows hx)
  constructor <;> omega

theorem build_encodes {product n m : ℕ} {nontrivial : Bool} (hproduct : product < 2 ^ (n + m))
    (hwide : nontrivial = true → 2 ≤ n ∧ 2 ≤ m) :
    Encodes (build product n m nontrivial) product n m nontrivial := by
  have hin := inputs_newVars n m
  have hrows := hin.products
  have hsum := addColumns_addsColumns hrows.circuit.wellFormed le_rfl (Fresh.nil _ _)
    (fresh_columns hrows.fresh (n + m))
  have hpins := pinOutput_pinsOutput hsum.circuit.wellFormed product
    (fun x hx => hsum.bit x (List.mem_of_mem_take (i := n + m) hx))
  exact Stages.encodes ⟨hin, hrows, hsum, hpins⟩ hproduct hwide

end Multiplier

end FactorSearch
