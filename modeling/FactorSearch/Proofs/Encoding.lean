import FactorSearch.Proofs.ExactMultiplier
import FactorSearch.Proofs.Numerals

/-!
The clauses that are written for a multiplication. They have a model with given inputs
exactly if these multiply to the product, and are not trivial where that is excluded.
The model is the only one with these inputs, and the output of every model is the product.
-/

namespace FactorSearch

open Circuit FactorSearch.Valuation

namespace Capacity

/-- The words that a number can have in so much room. -/
def mostWordsIn (room : ℕ) : ℕ := min mostWords (room / 4)

/-- A power of two that cannot be formed has more bits than the words that there is room for. -/
theorem lt_of_checkPower_error {room k : ℕ} {e : CapacityError}
    (h : checkPower room k = .error e) : 30 * mostWordsIn room < k + 60 := by
  have hwords : wordsOfPower k ≤ k / 30 + 2 := by
    unfold wordsOfPower
    split <;> omega
  unfold checkPower at h
  unfold mostWordsIn
  split at h
  · omega
  · split at h
    · omega
    · cases h

/-- In the usual room only a very large power of two cannot be formed. -/
theorem lt_of_checkPower_usualRoom {k : ℕ} {e : CapacityError}
    (h : checkPower usualRoom k = .error e) : 2 ^ 37 < k := by
  have hlt := lt_of_checkPower_error h
  have hwords : mostWordsIn usualRoom = 2 ^ 33 := by decide
  omega

/-- A power of two that can be formed has an exponent of moderate size, whatever the room. -/
theorem lt_of_checkPower {room k : ℕ} (h : checkPower room k = .ok ()) : k < 2 ^ 67 := by
  have hwords : k / 30 ≤ wordsOfPower k := Nat.le_add_right _ _
  unfold checkPower mostWords at h
  split at h
  · cases h
  · omega

end Capacity

namespace Multiplication

/-- What is asked of a multiplication before clauses are written for it. -/
structure Admissible (product n m : ℕ) (nontrivial : Bool) : Prop where
  first : 1 ≤ n
  second : 1 ≤ m
  fits : product < 2 ^ (n + m)
  writable : product < 10 ^ Text.digitLimit
  wide : nontrivial = true → 2 ≤ n ∧ 2 ≤ m

variable {product n m : ℕ} {nontrivial : Bool}

def title (product width : ℕ) : String :=
  "c Circuit for product = " ++ toString (product : Int) ++ " [binary: "
    ++ Multiplier.binary width product ++ "]"

/-- The text of a circuit: a title, the annotations of the three numbers, the clauses. -/
def encoding (product width : ℕ) (M : Multiplier) : Dimacs where
  comments := title product width ::
    Operand.all.map (fun o => Multiplier.annotation o (M.layout.bits o))
  clauses := M.circuit.clauses

/-- Clauses are written unless there is no room for the power of two that bounds the product. -/
theorem dimacs_eq (h : Admissible product n m nontrivial) (room : ℕ) :
    dimacs ⟨product, n, m, nontrivial⟩ room =
      match Capacity.checkPower room (n + m) with
      | .error e => .error (.capacity e)
      | .ok () =>
        .ok (encoding product (n + m) (Multiplier.build product n m nontrivial)) := by
  have hwidth : (⟨product, n, m, nontrivial⟩ : Multiplication).width.toNat = n + m := by
    show ((n : Int) + m).toNat = n + m
    omega
  have hbits : ¬((n : Int) < 1 ∨ (m : Int) < 1) := by
    have hfirst := h.first
    have hsecond := h.second
    omega
  have hsign : ¬((product : Int) < 0) := by omega
  have hfits : Capacity.fits (n + m) product = true := (Capacity.fits_iff _ _).2 h.fits
  have hnarrow : ¬(nontrivial = true ∧ ((n : Int) < 2 ∨ (m : Int) < 2)) := by
    intro hboth
    obtain ⟨hnontrivial, hnarrow⟩ := hboth
    obtain ⟨hn, hm⟩ := h.wide hnontrivial
    omega
  have htext : Text.integerText? (product : Int) = some (toString (product : Int)) :=
    Text.integerText?_of_lt (by rw [Int.natAbs_natCast]; exact h.writable)
  unfold dimacs
  rw [hwidth]
  simp only [hbits, hsign, hnarrow, htext, if_false, Int.toNat_natCast, hfits, Bool.not_true,
    Bool.false_eq_true]
  rfl

/-- Clauses are written for what is admissible only. -/
theorem exists_encoding {p : Multiplication} {room : ℕ} {d : Dimacs}
    (h : p.dimacs room = .ok d) :
    ∃ product n m : ℕ, p = ⟨product, n, m, p.nontrivial⟩ ∧ Admissible product n m p.nontrivial ∧
      Capacity.checkPower room (n + m) = .ok () ∧
      d = encoding product (n + m) (Multiplier.build product n m p.nontrivial) := by
  obtain ⟨product, first, second, nontrivial⟩ := p
  have hdimacs := h
  unfold dimacs at h
  simp only at h
  split at h
  · cases h
  rename_i hbits
  split at h
  · cases h
  rename_i hsign
  obtain ⟨n, rfl⟩ := Int.eq_ofNat_of_zero_le (by omega : 0 ≤ first)
  obtain ⟨m, rfl⟩ := Int.eq_ofNat_of_zero_le (by omega : 0 ≤ second)
  obtain ⟨k, rfl⟩ := Int.eq_ofNat_of_zero_le (by omega : 0 ≤ product)
  split at h
  · cases h
  rename_i hcheck
  split at h
  · cases h
  rename_i hfits
  split at h
  · cases h
  rename_i hnarrow
  split at h
  · cases h
  rename_i text htext
  have hwidth : (⟨k, n, m, nontrivial⟩ : Multiplication).width.toNat = n + m := by
    show ((n : Int) + m).toNat = n + m
    omega
  rw [hwidth] at hcheck hfits
  have hadmissible : Admissible k n m nontrivial := by
    refine ⟨by omega, by omega, ?_, ?_, ?_⟩
    · exact (Capacity.fits_iff _ _).1 (by simpa using hfits)
    · simpa using Text.natAbs_lt_of_integerText? htext
    · intro hnontrivial
      by_contra hwide
      exact hnarrow ⟨hnontrivial, by omega⟩
  refine ⟨k, n, m, rfl, hadmissible, hcheck, ?_⟩
  rw [dimacs_eq hadmissible room, hcheck] at hdimacs
  exact (Except.ok.inj hdimacs).symm

/-- The clauses of a multiplication encode exactly the multiplication, whatever the room. -/
theorem dimacs_exact (h : Admissible product n m nontrivial) (room : ℕ) :
    let M := Multiplier.build product n m nontrivial
    ((30 * Capacity.mostWordsIn room < n + m + 60 ∧
        ∃ e, Capacity.checkPower room (n + m) = .error e ∧
          dimacs ⟨product, n, m, nontrivial⟩ room = .error (.capacity e)) ∨
      dimacs ⟨product, n, m, nontrivial⟩ room = .ok (encoding product (n + m) M)) ∧
    (M.layout.first.length = n ∧ M.layout.second.length = m ∧
      M.layout.output.length = n + m) ∧
    (∀ a < 2 ^ n, ∀ b < 2 ^ m,
      (∃ v : Valuation, v.Models M.circuit.clauses ∧ v.number M.layout.first = a ∧
        v.number M.layout.second = b) ↔
      a * b = product ∧ (nontrivial = true → 2 ≤ a ∧ 2 ≤ b)) ∧
    (∀ v w : Valuation, v.Models M.circuit.clauses → w.Models M.circuit.clauses →
      v.number M.layout.first = w.number M.layout.first →
      v.number M.layout.second = w.number M.layout.second → v.AgreeUpTo w M.circuit.size) ∧
    (∀ v : Valuation, v.Models M.circuit.clauses → v.number M.layout.output = product) := by
  intro M
  have hM : M.Encodes product n m nontrivial := Multiplier.build_encodes h.fits h.wide
  refine ⟨?_, hM.length, ?_, hM.unique, fun v hv => (hM.holds v hv).2.2⟩
  · rw [dimacs_eq h]
    cases hcheck : Capacity.checkPower room (n + m) with
    | error e => exact Or.inl ⟨Capacity.lt_of_checkPower_error hcheck, e, rfl, rfl⟩
    | ok _ => exact Or.inr rfl
  · intro a ha b hb
    constructor
    · intro hexists
      obtain ⟨v, hv, rfl, rfl⟩ := hexists
      obtain ⟨hproduct, hnontrivial, -⟩ := hM.holds v hv
      exact ⟨hproduct, hnontrivial⟩
    · intro hboth
      obtain ⟨hproduct, hnontrivial⟩ := hboth
      exact hM.exists_models a b ha hb hproduct hnontrivial

theorem admissible_six : Admissible 6 2 2 true where
  first := by decide
  second := by decide
  fits := by decide
  writable := Nat.lt_of_lt_of_le (by decide : 6 < 10 ^ 1) (Nat.pow_le_pow_right (by decide) (by decide))
  wide _ := by decide

theorem exists_model_six :
    ∃ v : Valuation, v.Models (Multiplier.build 6 2 2 true).circuit.clauses ∧
      v.number (Multiplier.build 6 2 2 true).layout.first = 2 ∧
      v.number (Multiplier.build 6 2 2 true).layout.second = 3 ∧
      v.number (Multiplier.build 6 2 2 true).layout.output = 6 := by
  obtain ⟨-, -, hiff, -, houtput⟩ := dimacs_exact admissible_six Capacity.usualRoom
  obtain ⟨v, hv, hfirst, hsecond⟩ :=
    (hiff 2 (by decide) 3 (by decide)).2 ⟨rfl, fun _ => ⟨by decide, by decide⟩⟩
  exact ⟨v, hv, hfirst, hsecond, houtput v hv⟩

end Multiplication

end FactorSearch
