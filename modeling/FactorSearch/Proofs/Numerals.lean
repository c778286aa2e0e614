import FactorSearch.Text.Integer
import Mathlib.Algebra.Group.Nat.Defs

/-!
Integers as text and back. The decimal text of an integer is a sign, if it is negative,
and digits; reading it yields the integer, as long as it has no more digits than can be
written.
-/

namespace FactorSearch.Text

theorem toNat_bounds_of_isDigit {c : Char} (h : c.isDigit = true) :
    48 ≤ c.toNat ∧ c.toNat ≤ 57 := Char.isDigit_iff_toNat.1 h

theorem not_wideBlank {n : ℕ} (h : n < 133) : wideBlanks.contains n = false := by
  unfold wideBlanks
  simp only [List.contains_cons, List.contains_nil, Bool.or_false, Bool.or_eq_false_iff,
    beq_eq_false_iff_ne]
  omega

theorem isBlank_of_isDigit {c : Char} (h : c.isDigit = true) : isBlank c = false := by
  obtain ⟨hlow, hhigh⟩ := toNat_bounds_of_isDigit h
  unfold isBlank
  simp only [not_wideBlank (n := c.toNat) (by omega), Bool.or_false, Bool.or_eq_false_iff,
    Bool.and_eq_false_iff, decide_eq_false_iff_not]
  omega

theorem digit?_of_isDigit {c : Char} (h : c.isDigit = true) :
    digit? c = some (c.toNat - 48) := by
  obtain ⟨hlow, hhigh⟩ := toNat_bounds_of_isDigit h
  have hfound : (decide (48 ≤ c.toNat) && decide (c.toNat < 48 + 10)) = true := by
    rw [Bool.and_eq_true, decide_eq_true_eq, decide_eq_true_eq]
    omega
  have hzeros : zeros = 48 :: zeros.tail := rfl
  unfold digit?
  rw [hzeros, List.find?_cons_of_pos]
  · rfl
  · exact hfound

theorem numeralChar_of_isDigit {c : Char} (h : c.isDigit = true) :
    numeralChar c = .digit (c.toNat - 48) := by
  obtain ⟨hlow, hhigh⟩ := toNat_bounds_of_isDigit h
  have hunderscore : c ≠ '_' := by
    intro heq
    subst heq
    exact absurd h (by decide)
  have hplus : c ≠ '+' := by
    intro heq
    subst heq
    exact absurd h (by decide)
  have hminus : c ≠ '-' := by
    intro heq
    subst heq
    exact absurd h (by decide)
  have hblank : ((decide (9 ≤ c.toNat) && decide (c.toNat ≤ 13)) || c.toNat == 32 ||
      wideBlanks.contains c.toNat) = false := by
    simp only [not_wideBlank (n := c.toNat) (by omega), Bool.or_false, Bool.or_eq_false_iff,
      Bool.and_eq_false_iff, decide_eq_false_iff_not, beq_eq_false_iff_ne]
    omega
  unfold numeralChar
  rw [if_neg hunderscore, if_neg hplus, if_neg hminus, hblank, digit?_of_isDigit h]
  rfl

theorem digitsAfter_map (done ds : List ℕ) :
    digitsAfter done (ds.map .digit) = some ⟨done.reverse ++ ds, []⟩ := by
  induction ds generalizing done with
  | nil =>
    rw [List.append_nil]
    rfl
  | cons d rest ih =>
    rw [List.map_cons, digitsAfter, ih, List.reverse_cons, List.append_assoc]
    rfl

/-- The digits of a run of plain digits. -/
def plainDigits (cs : List Char) : List ℕ := cs.map (fun c => c.toNat - 48)

theorem map_numeralChar {cs : List Char} (h : ∀ c ∈ cs, c.isDigit = true) :
    cs.map numeralChar = (plainDigits cs).map .digit := by
  unfold plainDigits
  rw [List.map_map]
  exact List.map_congr_left (fun c hc => numeralChar_of_isDigit (h c hc))

theorem digitRun_digits {cs : List Char} (h : ∀ c ∈ cs, c.isDigit = true) (hne : cs ≠ []) :
    digitRun (cs.map numeralChar) = some ⟨plainDigits cs, []⟩ := by
  cases cs with
  | nil => exact absurd rfl hne
  | cons c rest =>
    rw [map_numeralChar h]
    exact digitsAfter_map [c.toNat - 48] (plainDigits rest)

theorem valueOf_plainDigits (cs : List Char) : valueOf (plainDigits cs) = Nat.ofDigitChars 10 cs 0 := by
  unfold valueOf plainDigits
  rw [List.foldl_map]
  rfl

/-- Digits, perhaps after a minus sign, are read as their value. -/
theorem parseInteger_digits {cs : List Char} (h : ∀ c ∈ cs, c.isDigit = true) (hne : cs ≠ [])
    (hlength : cs.length ≤ digitLimit) :
    parseInteger cs = .ok (Nat.ofDigitChars 10 cs 0) ∧
      parseInteger ('-' :: cs) = .ok (-(Nat.ofDigitChars 10 cs 0 : ℕ)) := by
  have hrun := digitRun_digits h hne
  have hsign : splitSign ((cs.map numeralChar).dropWhile (· = .blank)) = (false, cs.map numeralChar) := by
    rw [map_numeralChar h]
    cases cs with
    | nil => exact absurd rfl hne
    | cons c rest => rfl
  have hminus : splitSign ((('-' :: cs).map numeralChar).dropWhile (· = .blank)) =
      (true, cs.map numeralChar) := rfl
  have hfits : ¬ digitLimit < (plainDigits cs).length := by
    unfold plainDigits
    rw [List.length_map]
    omega
  unfold parseInteger
  rw [hsign, hminus]
  simp only [hrun, hfits, if_false, valueOf_plainDigits]
  exact ⟨rfl, rfl⟩

theorem isDigit_of_mem_repr {n : ℕ} {c : Char} (h : c ∈ n.repr.toList) : c.isDigit = true := by
  rw [Nat.toList_repr] at h
  exact Nat.isDigit_of_mem_toDigits (by decide) (by decide) h

theorem toList_toString (z : Int) :
    (toString z).toList = if 0 ≤ z then z.toNat.repr.toList else '-' :: (-z).toNat.repr.toList := by
  rw [Int.toString_eq_repr, Int.repr_eq_if]
  split
  · rfl
  · rw [String.toList_append]
    rfl

/-- The characters of the text of an integer. -/
theorem numeral_of_mem_toString {z : Int} {c : Char} (h : c ∈ (toString z).toList) :
    c.isDigit = true ∨ c = '-' := by
  rw [toList_toString] at h
  split at h
  · exact Or.inl (isDigit_of_mem_repr h)
  · rcases List.mem_cons.1 h with rfl | h
    · exact Or.inr rfl
    · exact Or.inl (isDigit_of_mem_repr h)

theorem toList_toString_ne_nil (z : Int) : (toString z).toList ≠ [] := by
  rw [toList_toString]
  split
  · rw [Nat.toList_repr]
    exact Nat.toDigits_ne_nil
  · exact List.cons_ne_nil _ _

theorem isBlank_of_numeral {c : Char} (h : c.isDigit = true ∨ c = '-') : isBlank c = false := by
  rcases h with h | rfl
  · exact isBlank_of_isDigit h
  · decide

theorem isLineBreak_of_numeral {c : Char} (h : c.isDigit = true ∨ c = '-') :
    isLineBreak c = false := by
  rcases h with h | rfl
  · obtain ⟨hlow, hhigh⟩ := toNat_bounds_of_isDigit h
    unfold isLineBreak
    simp only [Bool.or_eq_false_iff, Bool.and_eq_false_iff, decide_eq_false_iff_not,
      beq_eq_false_iff_ne]
    omega
  · decide

theorem length_repr_le {n : ℕ} (h : n < 10 ^ digitLimit) : n.repr.length ≤ digitLimit :=
  (Nat.length_repr_le_iff (by decide)).2 h

theorem integerText?_of_lt {z : Int} (h : z.natAbs < 10 ^ digitLimit) :
    integerText? z = some (toString z) := by
  have hlength := length_repr_le h
  unfold integerText?
  rw [Nat.toString_eq_repr, if_neg (by omega)]

theorem natAbs_lt_of_integerText? {z : Int} {text : String} (h : integerText? z = some text) :
    z.natAbs < 10 ^ digitLimit := by
  unfold integerText? at h
  simp only at h
  split at h
  · cases h
  · rename_i hfits
    rw [Nat.toString_eq_repr, Nat.not_lt] at hfits
    exact (Nat.length_repr_le_iff (by decide)).1 hfits

/-- The text of an integer is read as the integer. -/
theorem parseInteger_toString {z : Int} (h : z.natAbs < 10 ^ digitLimit) :
    parseInteger (toString z).toList = .ok z := by
  have hread : ∀ n : ℕ, n < 10 ^ digitLimit →
      parseInteger n.repr.toList = .ok n ∧ parseInteger ('-' :: n.repr.toList) = .ok (-(n : Int)) := by
    intro n hn
    have hvalue : Nat.ofDigitChars 10 n.repr.toList 0 = n := by
      rw [Nat.toList_repr, Nat.ofDigitChars_ten_toDigits]
    have hne : n.repr.toList ≠ [] := by
      rw [Nat.toList_repr]
      exact Nat.toDigits_ne_nil
    have hparse := parseInteger_digits (fun c hc => isDigit_of_mem_repr hc) hne (length_repr_le hn)
    rwa [hvalue] at hparse
  rw [toList_toString]
  by_cases hz : 0 ≤ z
  · rw [if_pos hz, (hread z.toNat (by omega)).1]
    congr 1
    omega
  · rw [if_neg hz, (hread (-z).toNat (by omega)).2]
    congr 1
    omega

end FactorSearch.Text
