import FactorSearch.Proofs.PartialProducts

/-!
Pinning the output. A column without a bit gets a variable that is zero. Fixing the bits
of the output to those of the product leaves the models in which the bits, as a binary
number, are the product. Then the bits beyond the output are cleared, and zero and one
are excluded as factors if that is wanted.
-/

namespace FactorSearch

open Circuit FactorSearch.Valuation

namespace Valuation

variable {v : Valuation}

theorem digit_eq_iff {x : Int} {k : ℕ} : v.digit x = k % 2 ↔ v x = decide (k % 2 = 1) := by
  unfold digit
  rcases Nat.mod_two_eq_zero_or_one k with h | h <;> rw [h] <;> cases v x <;> decide

theorem value_pos_iff {xs : List Int} : 0 < v.value xs ↔ ∃ x ∈ xs, v x = true := by
  induction xs with
  | nil => simp
  | cons x rest ih =>
    simp only [value_cons, List.mem_cons, exists_eq_or_imp, ← ih]
    unfold digit
    cases v x
    · simp
    · simp

end Valuation

namespace Circuit

theorem local_bit {c : Circuit} {b : Option Int} (h : ∀ x ∈ b, c.Has x) (k : ℕ) :
    Local (fun v => v.bit b = k) c := by
  intro v w hvw hv
  have hbit : v.bit b = w.bit b := bit_congr (fun x hx => hvw x (h x hx).1 (h x hx).2)
  rw [← hbit]
  exact hv

theorem local_binary {c : Circuit} {bits : List (Option Int)} (h : ∀ x, some x ∈ bits → c.Has x)
    (k : ℕ) : Local (fun v => v.binary bits = k) c := by
  intro v w hvw hv
  have hbits : v.binary bits = w.binary bits :=
    binary_congr (fun x hx => hvw x (h x hx).1 (h x hx).2)
  rw [← hbits]
  exact hv

end Circuit

namespace Multiplier

section Pins

variable {c : Circuit} {x : Int}

theorem fitsIn_pin {k : ℕ} (hpos : 0 < x) (hle : x ≤ k) (b : Bool) : FitsIn k (pin x b) := by
  obtain ⟨z, hunit, habs⟩ : ∃ z : Int, pin x b = [z] ∧ z.natAbs = x.natAbs := by
    cases b
    · exact ⟨-x, rfl, Int.natAbs_neg x⟩
    · exact ⟨x, rfl, rfl⟩
  rw [hunit]
  refine ⟨List.cons_ne_nil _ _, ?_, List.nodup_singleton _⟩
  rw [List.forall_mem_singleton]
  omega

theorem exists_pin (hx : 0 < x) (b : Bool) (v : Valuation) :
    (∃ l ∈ pin x b, v.signed l = true) ↔ v x = b := by
  unfold pin
  cases b
  · simp [signed_neg hx]
  · simp [signed_pos hx]

theorem narrows_pin (hc : c.WellFormed) (hx : c.Has x) (b : Bool) :
    c.Narrows (fun v => v x = b) (c.add (pin x b)) := by
  apply (narrows_add hc (fitsIn_pin hx.1 hx.2 b)).congr
  intro v _
  exact exists_pin hx.1 b v

theorem occurs_pin (hx : 0 < x) (b : Bool) : (c.add (pin x b)).Occurs x := by
  refine ⟨pin x b, ?_, ?_⟩
  · rw [clauses_add]
    exact List.mem_append_right _ (List.mem_singleton_self _)
  · unfold pin
    cases b
    · exact ⟨-x, List.mem_singleton_self _, by omega⟩
    · exact ⟨x, List.mem_singleton_self _, by omega⟩

/-- The variable that stands for a bit. -/
def standIn (c : Circuit) : Option Int → Int × Circuit
  | some x => (x, c)
  | none => (c.newVar.1, c.newVar.2.add [-c.newVar.1])

theorem pinOutput_cons (c : Circuit) (product : ℕ) (b : Option Int) (rest : List (Option Int)) :
    pinOutput c product (b :: rest) =
      ((standIn c b).1 ::
          (pinOutput ((standIn c b).2.add (pin (standIn c b).1 (product % 2 = 1)))
            (product / 2) rest).1,
        (pinOutput ((standIn c b).2.add (pin (standIn c b).1 (product % 2 = 1)))
          (product / 2) rest).2) := by
  cases b <;> rfl

/-- The variable that stands for a bit has its value. -/
structure StandsFor (c : Circuit) (b : Option Int) (x : Int) (d : Circuit) : Prop where
  circuit : c.Extends d
  has : d.Has x
  size : d.size ≤ c.size + 1
  digit : ∀ v : Valuation, v.Models d.clauses → v.digit x = v.bit b

theorem standIn_standsFor (hc : c.WellFormed) {b : Option Int} (hb : ∀ x ∈ b, c.Has x) :
    StandsFor c b (standIn c b).1 (standIn c b).2 := by
  cases b with
  | some x => exact ⟨Extends.refl hc, hb x rfl, Nat.le_succ _, fun _ _ => rfl⟩
  | none =>
    have hpos : (0 : Int) < c.size + 1 := by omega
    have hzero : ∀ v : Valuation,
        v.Models [pin ((c.size : Int) + 1) false] ↔ v (c.size + 1) = false :=
      fun v => models_singleton.trans (exists_pin hpos false v)
    have hfits : FitsIn (c.size + 1) (pin ((c.size : Int) + 1) false) :=
      fitsIn_pin hpos (le_of_eq (Nat.cast_succ c.size).symm) false
    have hextends : c.Extends (c.gate (fun out => [pin out false])).2 :=
      extends_gate (f := fun _ => false) hc (by simpa using hfits) hzero (fun _ _ _ => rfl)
    refine ⟨hextends, ?_, Nat.le_refl _, ?_⟩
    · constructor
      · exact hpos
      · show (c.size : Int) + 1 ≤ (c.size + 1 : ℕ)
        omega
    · intro v hv
      have hfalse : v (c.size + 1) = false := (hzero v).1 (models_singleton.2 (models_add.1 hv).2)
      show (v (c.size + 1)).toNat = 0
      rw [hfalse]
      rfl

theorem StandsFor.narrows_pin {b : Option Int} {d : Circuit} (h : StandsFor c b x d)
    (hb : ∀ y ∈ b, c.Has y) (k : ℕ) :
    c.Narrows (fun v => v.bit b = k % 2) (d.add (pin x (k % 2 = 1))) := by
  have hpin : d.Narrows (fun v => v.bit b = k % 2) (d.add (pin x (k % 2 = 1))) := by
    apply (Multiplier.narrows_pin h.circuit.wellFormed h.has _).congr
    intro v hv
    rw [← h.digit v hv]
    exact digit_eq_iff.symm
  exact (Narrows.trans h.circuit hpin (local_bit hb _)).congr (fun _ _ => Iff.of_eq (true_and _))

/-- What pinning the output guarantees. -/
structure PinsOutput (c : Circuit) (product : ℕ) (bits : List (Option Int)) (vars : List Int)
    (d : Circuit) : Prop where
  circuit : c.Narrows (fun v => v.binary bits = product % 2 ^ bits.length) d
  length : vars.length = bits.length
  size : d.size ≤ c.size + bits.length
  has : ∀ x ∈ vars, d.Has x
  occurs : ∀ x ∈ vars, d.Occurs x
  value : ∀ v : Valuation, v.Models d.clauses → v.value vars = v.binary bits

theorem pinOutput_pinsOutput {c : Circuit} (hc : c.WellFormed) (product : ℕ)
    {bits : List (Option Int)} (hbits : ∀ x, some x ∈ bits → c.Has x) :
    PinsOutput c product bits (pinOutput c product bits).1 (pinOutput c product bits).2 := by
  induction bits generalizing c product with
  | nil =>
    refine ⟨?_, rfl, Nat.le_refl _, by simp [pinOutput], by simp [pinOutput], fun _ _ => rfl⟩
    exact (Extends.refl hc).congr (fun v _ => by simp [Nat.mod_one])
  | cons b rest ih =>
    have hb : ∀ x ∈ b, c.Has x := by
      intro x heq
      subst heq
      exact hbits x List.mem_cons_self
    have hrest : ∀ x, some x ∈ rest → c.Has x := fun x hx => hbits x (List.mem_cons_of_mem _ hx)
    have hstands := standIn_standsFor hc hb
    rw [pinOutput_cons]
    generalize standIn c b = stand at hstands ⊢
    obtain ⟨x, d⟩ := stand
    have hnow := hstands.narrows_pin hb product
    have hlater := ih hnow.wellFormed (product / 2) (fun y hy => hnow.has (hrest y hy))
    refine ⟨?_, congrArg Nat.succ hlater.length, ?_, ?_, ?_, ?_⟩
    · apply (hnow.trans hlater.circuit (local_binary hrest _)).congr
      intro v _
      have hbit : v.bit b < 2 := by
        cases b with
        | none => exact Nat.two_pos
        | some x => exact v.digit_lt x
      rw [binary_cons, List.length_cons, Nat.pow_succ', Nat.mod_mul]
      omega
    · have hstand := hstands.size
      have hrestSize := hlater.size
      have hsame : (d.add (pin x (decide (product % 2 = 1)))).size = d.size := rfl
      show (pinOutput _ (product / 2) rest).2.size ≤ c.size + (rest.length + 1)
      simp only at hstand hrestSize hsame ⊢
      omega
    · refine List.forall_mem_cons.2 ⟨?_, hlater.has⟩
      exact hlater.circuit.has hstands.has
    · refine List.forall_mem_cons.2 ⟨?_, hlater.occurs⟩
      exact hlater.circuit.occurs (occurs_pin hstands.has.1 _)
    · intro v hv
      have hdigit := hstands.digit v (models_add.1 (hlater.circuit.models hv)).1
      have hrestValue := hlater.value v hv
      show v.value (x :: _) = _
      rw [value_cons, binary_cons, hrestValue, hdigit]

theorem narrows_clearBits {bits : List (Option Int)} (hc : c.WellFormed)
    (hbits : ∀ x, some x ∈ bits → c.Has x) :
    c.Narrows (fun v => v.binary bits = 0) (clearBits c bits) := by
  induction bits generalizing c with
  | nil => exact (Extends.refl hc).congr (fun _ _ => by simp)
  | cons b rest ih =>
    have hrest : ∀ x, some x ∈ rest → c.Has x := fun x hx => hbits x (List.mem_cons_of_mem _ hx)
    cases b with
    | none =>
      apply (ih hc hrest).congr
      intro v _
      rw [binary_cons]
      show v.binary rest = 0 ↔ 0 + 2 * v.binary rest = 0
      omega
    | some x =>
      have hpin := narrows_pin hc (hbits x List.mem_cons_self) false
      have hlater := ih hpin.wellFormed (fun y hy => hpin.has (hrest y hy))
      apply (hpin.trans hlater (local_binary hrest 0)).congr
      intro v _
      have hdigit : v x = false ↔ v.digit x = 0 := (digit_eq_iff (k := 0)).symm
      rw [binary_cons, hdigit]
      show v.digit x = 0 ∧ v.binary rest = 0 ↔ v.digit x + 2 * v.binary rest = 0
      omega

theorem size_clearBits (c : Circuit) (bits : List (Option Int)) :
    (clearBits c bits).size = c.size := by
  induction bits generalizing c with
  | nil => rfl
  | cons b rest ih =>
    cases b with
    | none => exact ih c
    | some x => exact ih _

/-- A number of at least two bits is neither zero nor one if a bit other than its lowest
is set. -/
theorem narrows_drop {xs : List Int} (hc : c.WellFormed) (hxs : Fresh 0 c.size xs)
    (hlength : 2 ≤ xs.length) :
    c.Narrows (fun v => 2 ≤ v.value xs) (c.add (xs.drop 1)) := by
  obtain ⟨x, rest, rfl⟩ := List.exists_cons_of_length_pos (Nat.lt_of_succ_lt hlength)
  have hrest := fun y hy => hxs.between y (List.mem_cons_of_mem x hy)
  have hfits : FitsIn c.size rest := by
    constructor
    · intro heq
      subst heq
      exact absurd hlength (by simp)
    · intro y hy
      obtain ⟨hpos, hle⟩ := hrest y hy
      constructor <;> omega
    · apply hxs.nodup.of_cons.map_on
      intro y hy z hz h
      have hypos := (hrest y hy).1
      have hzpos := (hrest z hz).1
      omega
  apply (narrows_add hc hfits).congr
  intro v _
  have hsigned : (∃ y ∈ rest, v.signed y = true) ↔ 0 < v.value rest := by
    rw [value_pos_iff]
    refine exists_congr (fun y => and_congr_right (fun hy => ?_))
    rw [signed_pos (hrest y hy).1]
  have hdigit := v.digit_lt x
  rw [hsigned, value_cons]
  omega

end Pins

section Close

variable {product : ℕ} {nontrivial : Bool} {a b : List Int} {bits : List (Option Int)}

/-- Excluding trivial factors. -/
def exclude (nontrivial : Bool) (c : Circuit) (a b : List Int) : Circuit :=
  if nontrivial then (c.add (a.drop 1)).add (b.drop 1) else c

theorem value_eq_of_agree {c : Circuit} {xs : List Int} (h : Fresh 0 c.size xs)
    {v w : Valuation} (hvw : v.AgreeUpTo w c.size) : v.value xs = w.value xs :=
  value_congr (fun x hx => hvw x (h.between x hx).1 (h.between x hx).2)

theorem narrows_exclude {c : Circuit} (hc : c.WellFormed) (ha : Fresh 0 c.size a)
    (hb : Fresh 0 c.size b) (hwide : nontrivial = true → 2 ≤ a.length ∧ 2 ≤ b.length) :
    c.Narrows (fun v => nontrivial = true → 2 ≤ v.value a ∧ 2 ≤ v.value b)
      (exclude nontrivial c a b) := by
  cases nontrivial with
  | false => exact (Extends.refl hc).congr (fun _ _ => by simp)
  | true =>
    obtain ⟨hwa, hwb⟩ := hwide rfl
    have hfirst := narrows_drop hc ha hwa
    have hsecond := narrows_drop hfirst.wellFormed hb hwb
    have hlocal : Local (fun v => 2 ≤ v.value b) c := by
      intro v w hvw hv
      rw [← value_eq_of_agree hb hvw]
      exact hv
    exact (hfirst.trans hsecond hlocal).congr (fun _ _ => by simp)

theorem size_exclude (nontrivial : Bool) (c : Circuit) (a b : List Int) :
    (exclude nontrivial c a b).size = c.size := by
  cases nontrivial <;> rfl

/-- After the output is pinned, the bits beyond it are zero. -/
def close (nontrivial : Bool) (c : Circuit) (bits : List (Option Int)) (a b : List Int) : Circuit :=
  exclude nontrivial (clearBits c bits) a b

theorem size_close (nontrivial : Bool) (c : Circuit) (bits : List (Option Int)) (a b : List Int) :
    (close nontrivial c bits a b).size = c.size := by
  unfold close
  rw [size_exclude, size_clearBits]

theorem narrows_close {c : Circuit} (hc : c.WellFormed) (hbits : ∀ x, some x ∈ bits → c.Has x)
    (ha : Fresh 0 c.size a) (hb : Fresh 0 c.size b)
    (hwide : nontrivial = true → 2 ≤ a.length ∧ 2 ≤ b.length) :
    c.Narrows (fun v => v.binary bits = 0 ∧ (nontrivial = true → 2 ≤ v.value a ∧ 2 ≤ v.value b))
      (close nontrivial c bits a b) := by
  have hclear := narrows_clearBits hc hbits
  have hexclude := narrows_exclude hclear.wellFormed (ha.mono le_rfl hclear.size_le)
    (hb.mono le_rfl hclear.size_le) hwide
  apply hclear.trans hexclude
  intro v w hvw hv
  rw [← value_eq_of_agree ha hvw, ← value_eq_of_agree hb hvw]
  exact hv

/-- The product fits in the output, so the bits beyond it have to be zero. -/
theorem binary_eq_iff {width : ℕ} (hwidth : width ≤ bits.length) (hproduct : product < 2 ^ width)
    (v : Valuation) :
    v.binary bits = product ↔
      v.binary (bits.take width) = product % 2 ^ (bits.take width).length ∧
        v.binary (bits.drop width) = 0 := by
  have hsplit : v.binary bits =
      v.binary (bits.take width) + 2 ^ width * v.binary (bits.drop width) := by
    have happend := binary_append v (bits.take width) (bits.drop width)
    rw [List.take_append_drop, List.length_take_of_le hwidth] at happend
    exact happend
  rw [List.length_take_of_le hwidth, Nat.mod_eq_of_lt hproduct, hsplit]
  constructor
  · intro hsum
    have hhigh : v.binary (bits.drop width) = 0 := by
      by_contra hne
      have hle := Nat.le_mul_of_pos_right (2 ^ width) (Nat.pos_of_ne_zero hne)
      omega
    rw [hhigh, Nat.mul_zero, Nat.add_zero] at hsum
    exact ⟨hsum, hhigh⟩
  · intro hboth
    obtain ⟨hlow, hhigh⟩ := hboth
    rw [hlow, hhigh, Nat.mul_zero, Nat.add_zero]

end Close

end Multiplier

end FactorSearch
