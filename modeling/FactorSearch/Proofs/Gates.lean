import FactorSearch.Circuit
import FactorSearch.Proofs.Numbers

/-!
Circuits under a valuation. The clauses of a gate are satisfied exactly when its output
is the function of its inputs. A circuit with more gates has the models of the smaller
one, each continued to the new variables in one way; a clause over the old variables
takes some of the models away. The bits that an adder puts out weigh as much as the
bits that it takes.
-/

namespace FactorSearch

namespace Valuation

/-- Whether a signed integer, read as a literal, is true. -/
def signed (v : Valuation) (l : Int) : Bool := v l.natAbs == decide (0 < l)

/-- Every clause has a true literal. -/
def Models (v : Valuation) (clauses : List (List Int)) : Prop :=
  ∀ clause ∈ clauses, ∃ l ∈ clause, v.signed l = true

/-- The valuations agree on the variables up to a number. -/
def AgreeUpTo (v w : Valuation) (k : ℕ) : Prop := ∀ x : Int, 0 < x → x ≤ k → v x = w x

theorem signed_pos {v : Valuation} {x : Int} (h : 0 < x) : v.signed x = v x := by
  have habs : (x.natAbs : Int) = x := by omega
  unfold signed
  rw [habs, decide_eq_true h, beq_true]

theorem signed_neg {v : Valuation} {x : Int} (h : 0 < x) : v.signed (-x) = !v x := by
  have habs : ((-x).natAbs : Int) = x := by omega
  have hneg : ¬ 0 < -x := by omega
  unfold signed
  rw [habs, decide_eq_false hneg, beq_false]

theorem models_append {v : Valuation} {cs ds : List (List Int)} :
    v.Models (cs ++ ds) ↔ v.Models cs ∧ v.Models ds := List.forall_mem_append

theorem models_singleton {v : Valuation} {clause : List Int} :
    v.Models [clause] ↔ ∃ l ∈ clause, v.signed l = true := List.forall_mem_singleton

namespace AgreeUpTo

variable {u v w : Valuation} {j k : ℕ}

theorem refl (v : Valuation) (k : ℕ) : v.AgreeUpTo v k := fun _ _ _ => rfl

theorem symm (h : v.AgreeUpTo w k) : w.AgreeUpTo v k := fun x hx hk => (h x hx hk).symm

theorem trans (h : u.AgreeUpTo v k) (h' : v.AgreeUpTo w k) : u.AgreeUpTo w k :=
  fun x hx hk => (h x hx hk).trans (h' x hx hk)

theorem mono (h : v.AgreeUpTo w k) (hjk : j ≤ k) : v.AgreeUpTo w j :=
  fun x hx hj => h x hx (by omega)

theorem signed_eq (h : v.AgreeUpTo w k) {l : Int} (hl : l ≠ 0) (hk : l.natAbs ≤ k) :
    v.signed l = w.signed l := by
  simp only [signed, h l.natAbs (by omega) (by omega)]

end AgreeUpTo

end Valuation

open FactorSearch.Valuation

namespace Circuit

/-- A clause over the first variables in which no variable occurs twice. -/
structure FitsIn (k : ℕ) (clause : List Int) : Prop where
  nonempty : clause ≠ []
  bounded : ∀ l ∈ clause, l ≠ 0 ∧ l.natAbs ≤ k
  distinct : (clause.map Int.natAbs).Nodup

def WellFormed (c : Circuit) : Prop := ∀ clause ∈ c.clauses, FitsIn c.size clause

/-- A variable of the circuit. -/
def Has (c : Circuit) (x : Int) : Prop := 0 < x ∧ x ≤ c.size

/-- A variable that occurs in a clause. -/
def Occurs (c : Circuit) (x : Int) : Prop := ∃ clause ∈ c.clauses, ∃ l ∈ clause, (l.natAbs : Int) = x

/-- Distinct variables between two sizes of a circuit. -/
structure Fresh (low high : ℕ) (xs : List Int) : Prop where
  nodup : xs.Nodup
  between : ∀ x ∈ xs, low < x ∧ x ≤ high

namespace Fresh

variable {j k l m : ℕ} {x : Int} {xs ys : List Int}

theorem nil (j k : ℕ) : Fresh j k [] := ⟨List.nodup_nil, by simp⟩

theorem mono (h : Fresh k l xs) (hjk : j ≤ k) (hlm : l ≤ m) : Fresh j m xs := by
  refine ⟨h.nodup, fun x hx => ?_⟩
  obtain ⟨hlow, hhigh⟩ := h.between x hx
  constructor <;> omega

theorem append (hxs : Fresh j k xs) (hys : Fresh k l ys) (hjk : j ≤ k) (hkl : k ≤ l) :
    Fresh j l (xs ++ ys) := by
  constructor
  · apply hxs.nodup.append hys.nodup
    intro x hx hy
    have hlow := (hxs.between x hx).2
    have hhigh := (hys.between x hy).1
    omega
  · intro x hx
    rcases List.mem_append.1 hx with hx | hx
    · obtain ⟨hlow, hhigh⟩ := hxs.between x hx
      constructor <;> omega
    · obtain ⟨hlow, hhigh⟩ := hys.between x hx
      constructor <;> omega

theorem left (h : Fresh j k (xs ++ ys)) : Fresh j k xs :=
  ⟨(List.nodup_append'.1 h.nodup).1, fun x hx => h.between x (List.mem_append_left _ hx)⟩

theorem right (h : Fresh j k (xs ++ ys)) : Fresh j k ys :=
  ⟨(List.nodup_append'.1 h.nodup).2.1, fun x hx => h.between x (List.mem_append_right _ hx)⟩

theorem disjoint (h : Fresh j k (xs ++ ys)) : xs.Disjoint ys := (List.nodup_append'.1 h.nodup).2.2

theorem singleton (hlow : j < x) (hhigh : x ≤ k) : Fresh j k [x] :=
  ⟨List.nodup_singleton x, by simpa using ⟨hlow, hhigh⟩⟩

end Fresh

theorem FitsIn.mono {j k : ℕ} {clause : List Int} (h : FitsIn j clause) (hjk : j ≤ k) :
    FitsIn k clause where
  nonempty := h.nonempty
  bounded l hl := ⟨(h.bounded l hl).1, Nat.le_trans (h.bounded l hl).2 hjk⟩
  distinct := h.distinct

/-- Only the variables of a circuit matter to its models. -/
theorem WellFormed.models_congr {c : Circuit} (hc : c.WellFormed) {v w : Valuation}
    (h : v.AgreeUpTo w c.size) (hv : v.Models c.clauses) : w.Models c.clauses := by
  intro clause hclause
  obtain ⟨l, hl, htrue⟩ := hv clause hclause
  obtain ⟨hzero, hbound⟩ := (hc clause hclause).bounded l hl
  exact ⟨l, hl, h.signed_eq hzero hbound ▸ htrue⟩

theorem wellFormed_add {c : Circuit} (hc : c.WellFormed) {clause : List Int}
    (h : FitsIn c.size clause) : (c.add clause).WellFormed := by
  intro d hd
  rw [clauses_add, List.mem_append, List.mem_singleton] at hd
  rcases hd with hd | rfl
  · exact hc d hd
  · exact h

/-- A circuit with more clauses and variables: its models are the models of the smaller
one with a property, continued to the new variables in the only possible way. -/
structure Narrows (P : Valuation → Prop) (c d : Circuit) : Prop where
  size_le : c.size ≤ d.size
  wellFormed : d.WellFormed
  clauses_subset : c.clauses ⊆ d.clauses
  holds : ∀ v : Valuation, v.Models d.clauses → P v
  exists_models : ∀ v : Valuation, v.Models c.clauses → P v →
    ∃ w : Valuation, w.Models d.clauses ∧ w.AgreeUpTo v c.size
  unique : ∀ v w : Valuation, v.Models d.clauses → w.Models d.clauses →
    v.AgreeUpTo w c.size → v.AgreeUpTo w d.size

/-- A circuit with more gates: the old variables are not constrained any further. -/
abbrev Extends (c d : Circuit) : Prop := c.Narrows (fun _ => True) d

/-- A property of the variables of a circuit only. -/
def Local (P : Valuation → Prop) (c : Circuit) : Prop :=
  ∀ v w : Valuation, v.AgreeUpTo w c.size → P v → P w

namespace Narrows

variable {P Q : Valuation → Prop} {c d e : Circuit}

theorem models (h : c.Narrows P d) {v : Valuation} (hv : v.Models d.clauses) :
    v.Models c.clauses := fun clause hclause => hv clause (h.clauses_subset hclause)

theorem has (h : c.Narrows P d) {x : Int} (hx : c.Has x) : d.Has x := by
  have hle := h.size_le
  obtain ⟨hpos, hbound⟩ := hx
  exact ⟨hpos, by omega⟩

theorem occurs (h : c.Narrows P d) {x : Int} (hx : c.Occurs x) : d.Occurs x := by
  obtain ⟨clause, hclause, hl⟩ := hx
  exact ⟨clause, h.clauses_subset hclause, hl⟩

theorem congr (h : c.Narrows P d) (hPQ : ∀ v, v.Models c.clauses → (P v ↔ Q v)) :
    c.Narrows Q d where
  size_le := h.size_le
  wellFormed := h.wellFormed
  clauses_subset := h.clauses_subset
  holds v hv := (hPQ v (h.models hv)).1 (h.holds v hv)
  exists_models v hv hQ := h.exists_models v hv ((hPQ v hv).2 hQ)
  unique := h.unique

theorem trans (h : c.Narrows P d) (h' : d.Narrows Q e) (hQ : Local Q c) :
    c.Narrows (fun v => P v ∧ Q v) e where
  size_le := Nat.le_trans h.size_le h'.size_le
  wellFormed := h'.wellFormed
  clauses_subset := List.Subset.trans h.clauses_subset h'.clauses_subset
  holds v hv := ⟨h.holds v (h'.models hv), h'.holds v hv⟩
  exists_models v hv hPQ := by
    obtain ⟨u, hu, huv⟩ := h.exists_models v hv hPQ.1
    obtain ⟨w, hw, hwu⟩ := h'.exists_models u hu (hQ v u huv.symm hPQ.2)
    exact ⟨w, hw, (hwu.mono h.size_le).trans huv⟩
  unique v w hv hw hvw :=
    h'.unique v w hv hw (h.unique v w (h'.models hv) (h'.models hw) hvw)

end Narrows

namespace Extends

variable {P : Valuation → Prop} {c d e : Circuit}

theorem refl (hc : c.WellFormed) : c.Extends c where
  size_le := Nat.le_refl _
  wellFormed := hc
  clauses_subset := List.Subset.refl _
  holds _ _ := trivial
  exists_models v h _ := ⟨v, h, AgreeUpTo.refl v _⟩
  unique _ _ _ _ h := h

theorem trans (h : c.Extends d) (h' : d.Extends e) : c.Extends e :=
  (Narrows.trans h h' (fun _ _ _ => id)).congr (fun _ _ => and_self_iff)

end Extends

theorem models_add {c : Circuit} {clause : List Int} {v : Valuation} :
    v.Models (c.add clause).clauses ↔ v.Models c.clauses ∧ ∃ l ∈ clause, v.signed l = true := by
  rw [clauses_add, models_append, models_singleton]

/-- A clause over the old variables leaves the models that satisfy it. -/
theorem narrows_add {c : Circuit} (hc : c.WellFormed) {clause : List Int}
    (h : FitsIn c.size clause) :
    c.Narrows (fun v => ∃ l ∈ clause, v.signed l = true) (c.add clause) where
  size_le := Nat.le_refl _
  wellFormed := wellFormed_add hc h
  clauses_subset := by
    rw [clauses_add]
    exact List.subset_append_left _ _
  holds v hv := (models_add.1 hv).2
  exists_models v hv hclause := ⟨v, models_add.2 ⟨hv, hclause⟩, AgreeUpTo.refl v _⟩
  unique _ _ _ _ h := h

/-- A gate whose clauses say that its output is a function of the old variables. -/
theorem extends_gate {c : Circuit} (hc : c.WellFormed) {clausesOf : Int → List (List Int)}
    {f : Valuation → Bool} (hfits : ∀ clause ∈ clausesOf (c.size + 1), FitsIn (c.size + 1) clause)
    (hmodels : ∀ v : Valuation, v.Models (clausesOf (c.size + 1)) ↔ v (c.size + 1) = f v)
    (hlocal : ∀ v w : Valuation, v.AgreeUpTo w c.size → f v = f w) :
    c.Extends (c.gate clausesOf).2 where
  size_le := Nat.le_succ _
  wellFormed := by
    intro clause hclause
    rw [clauses_gate, List.mem_append] at hclause
    rcases hclause with hold | hnew
    · exact (hc clause hold).mono (Nat.le_succ _)
    · exact hfits clause hnew
  clauses_subset := by
    rw [clauses_gate]
    exact List.subset_append_left _ _
  holds _ _ := trivial
  exists_models v hv _ := by
    let w : Valuation := fun x => if x = c.size + 1 then f v else v x
    have hagree : w.AgreeUpTo v c.size := by
      intro x hx hk
      have hne : x ≠ c.size + 1 := by omega
      simp only [w, hne, if_false]
    refine ⟨w, ?_, hagree⟩
    rw [clauses_gate, models_append, hmodels]
    refine ⟨hc.models_congr hagree.symm hv, ?_⟩
    rw [hlocal w v hagree]
    simp only [w, if_true]
  unique v w hv hw hvw := by
    rw [clauses_gate, models_append, hmodels] at hv hw
    intro x hx hk
    by_cases hnew : x = c.size + 1
    · subst hnew
      rw [hv.2, hw.2, hlocal v w hvw]
    · have hsize : (c.gate clausesOf).2.size = c.size + 1 := rfl
      rw [hsize] at hk
      exact hvw x hx (by omega)

section Gates

variable {v : Valuation} {x y z out : Int}

theorem models_andClauses (hx : 0 < x) (hy : 0 < y) (hout : 0 < out) :
    v.Models (andClauses x y out) ↔ v out = (v x && v y) := by
  simp only [Models, andClauses, List.mem_cons, forall_eq_or_imp, forall_eq, exists_eq_or_imp,
    exists_eq_left, List.not_mem_nil, or_false, signed_pos hx, signed_pos hy,
    signed_pos hout, signed_neg hx, signed_neg hy, signed_neg hout]
  cases v x <;> cases v y <;> cases v out <;> simp

theorem models_xorClauses (hx : 0 < x) (hy : 0 < y) (hout : 0 < out) :
    v.Models (xorClauses x y out) ↔ v out = (v x ^^ v y) := by
  simp only [Models, xorClauses, List.mem_cons, forall_eq_or_imp, forall_eq, exists_eq_or_imp,
    exists_eq_left, List.not_mem_nil, or_false, signed_pos hx, signed_pos hy,
    signed_pos hout, signed_neg hx, signed_neg hy, signed_neg hout]
  cases v x <;> cases v y <;> cases v out <;> simp

theorem models_parityClauses (hx : 0 < x) (hy : 0 < y) (hz : 0 < z) (hout : 0 < out) :
    v.Models (parityClauses x y z out) ↔ v out = (v x ^^ v y ^^ v z) := by
  simp only [Models, parityClauses, List.mem_cons, forall_eq_or_imp, forall_eq, exists_eq_or_imp,
    exists_eq_left, List.not_mem_nil, or_false, signed_pos hx, signed_pos hy,
    signed_pos hz, signed_pos hout, signed_neg hx, signed_neg hy, signed_neg hz, signed_neg hout]
  cases v x <;> cases v y <;> cases v z <;> cases v out <;> simp

theorem models_majorityClauses (hx : 0 < x) (hy : 0 < y) (hz : 0 < z) (hout : 0 < out) :
    v.Models (majorityClauses x y z out) ↔ v out = (v x && v y || v x && v z || v y && v z) := by
  simp only [Models, majorityClauses, List.mem_cons, forall_eq_or_imp, forall_eq, exists_eq_or_imp,
    exists_eq_left, List.not_mem_nil, or_false, signed_pos hx, signed_pos hy,
    signed_pos hz, signed_pos hout, signed_neg hx, signed_neg hy, signed_neg hz, signed_neg hout]
  cases v x <;> cases v y <;> cases v z <;> cases v out <;> simp

end Gates

section Adders

variable {c : Circuit} {v : Valuation} {x y z : Int}

theorem extends_andGate (hc : c.WellFormed) (hx : c.Has x) (hy : c.Has y) (hxy : x ≠ y) :
    c.Extends (c.andGate x y).2 := by
  obtain ⟨hx, hxsize⟩ := hx
  obtain ⟨hy, hysize⟩ := hy
  apply extends_gate (f := fun v => v x && v y) hc
  · unfold andClauses
    simp only [List.forall_mem_cons]
    refine ⟨?_, ?_, ?_, List.forall_mem_nil _⟩ <;> constructor <;> simp <;> omega
  · exact fun v => models_andClauses hx hy (by omega)
  · intro v w h
    rw [h x hx hxsize, h y hy hysize]

theorem extends_xorGate (hc : c.WellFormed) (hx : c.Has x) (hy : c.Has y) (hxy : x ≠ y) :
    c.Extends (c.xorGate x y).2 := by
  obtain ⟨hx, hxsize⟩ := hx
  obtain ⟨hy, hysize⟩ := hy
  apply extends_gate (f := fun v => v x ^^ v y) hc
  · unfold xorClauses
    simp only [List.forall_mem_cons]
    refine ⟨?_, ?_, ?_, ?_, List.forall_mem_nil _⟩ <;> constructor <;> simp <;> omega
  · exact fun v => models_xorClauses hx hy (by omega)
  · intro v w h
    rw [h x hx hxsize, h y hy hysize]

theorem extends_parity (hc : c.WellFormed) (hx : c.Has x) (hy : c.Has y) (hz : c.Has z)
    (hdistinct : [x, y, z].Nodup) : c.Extends (c.gate (parityClauses x y z)).2 := by
  obtain ⟨hx, hxsize⟩ := hx
  obtain ⟨hy, hysize⟩ := hy
  obtain ⟨hz, hzsize⟩ := hz
  simp only [List.nodup_cons, List.mem_cons, List.not_mem_nil, not_or] at hdistinct
  apply extends_gate (f := fun v => v x ^^ v y ^^ v z) hc
  · unfold parityClauses
    simp only [List.forall_mem_cons]
    refine ⟨?_, ?_, ?_, ?_, ?_, ?_, ?_, ?_, List.forall_mem_nil _⟩ <;>
      constructor <;> simp <;> omega
  · exact fun v => models_parityClauses hx hy hz (by omega)
  · intro v w h
    rw [h x hx hxsize, h y hy hysize, h z hz hzsize]

theorem extends_majority (hc : c.WellFormed) (hx : c.Has x) (hy : c.Has y) (hz : c.Has z)
    (hdistinct : [x, y, z].Nodup) : c.Extends (c.gate (majorityClauses x y z)).2 := by
  obtain ⟨hx, hxsize⟩ := hx
  obtain ⟨hy, hysize⟩ := hy
  obtain ⟨hz, hzsize⟩ := hz
  simp only [List.nodup_cons, List.mem_cons, List.not_mem_nil, not_or] at hdistinct
  apply extends_gate (f := fun v => v x && v y || v x && v z || v y && v z) hc
  · unfold majorityClauses
    simp only [List.forall_mem_cons]
    refine ⟨?_, ?_, ?_, ?_, ?_, ?_, List.forall_mem_nil _⟩ <;> constructor <;> simp <;> omega
  · exact fun v => models_majorityClauses hx hy hz (by omega)
  · intro v w h
    rw [h x hx hxsize, h y hy hysize, h z hz hzsize]

/-- The last gate of a circuit computes its function. -/
theorem value_gate {clausesOf : Int → List (List Int)} {b : Bool}
    (hmodels : v.Models (clausesOf (c.size + 1)) ↔ v (c.size + 1) = b)
    (hv : v.Models (c.gate clausesOf).2.clauses) : v (c.size + 1) = b := by
  rw [clauses_gate, models_append] at hv
  exact hmodels.1 hv.2

theorem value_andGate (hx : 0 < x) (hy : 0 < y) (hv : v.Models (c.andGate x y).2.clauses) :
    v (c.size + 1) = (v x && v y) := value_gate (models_andClauses hx hy (by omega)) hv

/-- An adder has two new variables as outputs, which weigh as much as its inputs. -/
structure Adds (c : Circuit) (inputs : List Int) (a : Adder) (d : Circuit) : Prop where
  circuit : c.Extends d
  size : d.size = c.size + 2
  sum : a.sum = c.size + 1
  carry : a.carry = c.size + 2
  weight : ∀ v : Valuation, v.Models d.clauses →
    v.digit a.sum + 2 * v.digit a.carry = v.count inputs

theorem adds_halfAdder (hc : c.WellFormed) (hx : c.Has x) (hy : c.Has y) (hxy : x ≠ y) :
    c.Adds [x, y] (c.halfAdder x y).1 (c.halfAdder x y).2 := by
  have hsum := extends_xorGate hc hx hy hxy
  have hcarry := extends_andGate hsum.wellFormed (hsum.has hx) (hsum.has hy) hxy
  refine ⟨hsum.trans hcarry, rfl, rfl, ?_, fun v hv => ?_⟩
  · show ((c.size + 1 : ℕ) : Int) + 1 = c.size + 2
    omega
  have hcarryBit : v (c.halfAdder x y).1.carry = (v x && v y) := value_andGate hx.1 hy.1 hv
  have hsumBit : v (c.halfAdder x y).1.sum = (v x ^^ v y) :=
    value_gate (models_xorClauses hx.1 hy.1 (by omega)) (hcarry.models hv)
  simp only [digit, count_cons, count_nil, hsumBit, hcarryBit]
  cases v x <;> cases v y <;> rfl

theorem adds_fullAdder (hc : c.WellFormed) (hx : c.Has x) (hy : c.Has y) (hz : c.Has z)
    (hdistinct : [x, y, z].Nodup) :
    c.Adds [x, y, z] (c.fullAdder x y z).1 (c.fullAdder x y z).2 := by
  have hsum := extends_parity hc hx hy hz hdistinct
  have hcarry :=
    extends_majority hsum.wellFormed (hsum.has hx) (hsum.has hy) (hsum.has hz) hdistinct
  refine ⟨hsum.trans hcarry, rfl, rfl, ?_, fun v hv => ?_⟩
  · show ((c.size + 1 : ℕ) : Int) + 1 = c.size + 2
    omega
  have hcarryBit : v (c.fullAdder x y z).1.carry = (v x && v y || v x && v z || v y && v z) :=
    value_gate (models_majorityClauses hx.1 hy.1 hz.1 (by omega)) hv
  have hsumBit : v (c.fullAdder x y z).1.sum = (v x ^^ v y ^^ v z) :=
    value_gate (models_parityClauses hx.1 hy.1 hz.1 (by omega)) (hcarry.models hv)
  simp only [digit, count_cons, count_nil, hsumBit, hcarryBit]
  cases v x <;> cases v y <;> cases v z <;> rfl

end Adders

end Circuit

end FactorSearch
