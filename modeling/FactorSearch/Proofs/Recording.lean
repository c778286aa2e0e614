import FactorSearch.SolutionText
import FactorSearch.Proofs.Lines
import Mathlib.Data.List.Nodup
import Mathlib.Data.Nat.Init

/-!
The text of a recorded solution and back. What is written for an assignment of positive
variables is read as the same values, and a host does not change its line breaks. It is never
the text of a problem.
-/

namespace FactorSearch

open Text

namespace Table

variable {κ α : Type} [DecidableEq κ]

theorem lookup_eq_some_iff {entries : List (κ × α)} (h : (entries.map Prod.fst).Nodup) {k : κ}
    {a : α} : lookup k entries = some a ↔ (k, a) ∈ entries := by
  induction entries with
  | nil => simp [lookup]
  | cons e rest ih =>
    obtain ⟨k', a'⟩ := e
    rw [List.map_cons, List.nodup_cons] at h
    obtain ⟨hnew, hrest⟩ := h
    unfold lookup
    by_cases hk : k' = k
    · subst hk
      rw [if_pos rfl, List.mem_cons, Prod.mk.injEq, Option.some.injEq]
      constructor
      · exact fun he => Or.inl ⟨rfl, he.symm⟩
      · rintro (⟨-, rfl⟩ | hmem)
        · rfl
        · exact absurd (List.mem_map_of_mem (f := Prod.fst) hmem) hnew
    · rw [if_neg hk, ih hrest, List.mem_cons, Prod.mk.injEq]
      exact ⟨Or.inr, fun hmem => hmem.resolve_left fun he => hk he.1.symm⟩

theorem get?_eq_some_iff (t : Table κ α) {k : κ} {a : α} :
    t.get? k = some a ↔ (k, a) ∈ t.entries := lookup_eq_some_iff t.nodup_keys

theorem sorted_perm (t : Table Int α) : t.sorted.Perm t.entries := List.mergeSort_perm _ _

theorem nodup_sorted (t : Table Int α) : (t.sorted.map Prod.fst).Nodup :=
  (t.sorted_perm.map Prod.fst).nodup_iff.2 t.nodup_keys

theorem mem_sorted (t : Table Int α) {e : Int × α} : e ∈ t.sorted ↔ t.get? e.1 = some e.2 := by
  rw [t.sorted_perm.mem_iff, t.get?_eq_some_iff]

theorem get?_insertAll (t : Table κ α) {pairs : List (κ × α)} (h : (pairs.map Prod.fst).Nodup)
    (k : κ) : (t.insertAll pairs).get? k = (lookup k pairs).or (t.get? k) := by
  induction pairs generalizing t with
  | nil => rfl
  | cons e rest ih =>
    obtain ⟨k', a⟩ := e
    rw [List.map_cons, List.nodup_cons] at h
    obtain ⟨hnew, hrest⟩ := h
    show ((t.insert k' a).insertAll rest).get? k = _
    rw [ih _ hrest, get?_insert, lookup]
    by_cases hk : k' = k
    · subst hk
      have hnone : lookup k' rest = none := by
        rw [← Option.not_isSome_iff_eq_none, lookup_isSome_iff]
        exact hnew
      rw [if_pos rfl, if_pos rfl, hnone, Option.none_or, Option.some_or]
    · rw [if_neg hk, if_neg hk]

/-- Sorting the bindings changes no value. -/
theorem get?_ofList_sorted (t : Table Int α) (k : Int) : (ofList t.sorted).get? k = t.get? k := by
  unfold ofList
  rw [get?_insertAll empty t.nodup_sorted, get?_empty, Option.or_none]
  ext a
  rw [lookup_eq_some_iff t.nodup_sorted, t.mem_sorted]

end Table

namespace SolutionText

/-- The values are those of variables that can be written. -/
def Recordable (t : Table Int Bool) : Prop :=
  ∀ x b, t.get? x = some b → 0 < x ∧ x.natAbs < 10 ^ digitLimit

section Numerals

theorem plainValue_eq (ds : List Char) : plainValue ds = Nat.ofDigitChars 10 ds 0 := rfl

/-- A numeral goes on as long as there are digits. -/
theorem numeralsFrom_digits {ds : List Char} (h : ∀ c ∈ ds, c.isDigit = true) (n : Numeral)
    (minus : Bool) {c : Char} (hc : c.isDigit = false) (rest : List Char) :
    numeralsFrom (some n) minus (ds ++ c :: rest) =
      ⟨n.negative, n.digits.reverse ++ ds⟩ :: numeralsFrom none (c == '-') rest := by
  induction ds generalizing n minus with
  | nil =>
    rw [List.nil_append, List.append_nil, numeralsFrom, hc]
    rfl
  | cons d ds ih =>
    rw [List.forall_mem_cons] at h
    rw [List.cons_append, numeralsFrom, h.1, if_pos rfl, ih h.2, List.reverse_cons,
      List.append_assoc]
    rfl

/-- Digits that do not begin with a zero are a numeral. -/
theorem numeralsFrom_number {d : Char} {ds : List Char} (hd : d.isDigit = true) (hzero : d ≠ '0')
    (h : ∀ c ∈ ds, c.isDigit = true) (minus : Bool) {c : Char} (hc : c.isDigit = false)
    (rest : List Char) :
    numeralsFrom none minus (d :: (ds ++ c :: rest)) =
      ⟨minus, d :: ds⟩ :: numeralsFrom none (c == '-') rest := by
  have hstart : (d.isDigit && d != '0') = true := by
    rw [hd, Bool.true_and]
    exact bne_iff_ne.2 hzero
  rw [numeralsFrom, hstart, if_pos rfl, numeralsFrom_digits h _ _ hc]
  rfl

/-- The text of a positive number does not begin with a zero. -/
theorem head?_repr_ne {n : ℕ} (hn : 0 < n) : n.repr.toList.head? ≠ some '0' := by
  induction n using Nat.strong_induction_on with
  | h n ih =>
    by_cases hsmall : n < 10
    · rw [Nat.toList_repr, Nat.toDigits_of_lt_base hsmall, List.head?_cons, ne_eq, Option.some_inj,
        Nat.digitChar_eq_zero]
      omega
    · have hhigh := ih (n / 10) (by omega) (by omega)
      rw [Nat.toList_repr] at hhigh ⊢
      rw [Nat.toDigits_of_base_le (by decide) (by omega),
        List.head?_append_of_ne_nil _ Nat.toDigits_ne_nil]
      exact hhigh

theorem exists_repr_cons {n : ℕ} (hn : 0 < n) :
    ∃ d ds, n.repr.toList = d :: ds ∧ d.isDigit = true ∧ d ≠ '0' ∧ ∀ c ∈ ds, c.isDigit = true := by
  have hne : n.repr.toList ≠ [] := by
    rw [Nat.toList_repr]
    exact Nat.toDigits_ne_nil
  obtain ⟨d, ds, hds⟩ := List.exists_cons_of_ne_nil hne
  have hdigits : ∀ c ∈ d :: ds, c.isDigit = true := fun c hc => isDigit_of_mem_repr (hds ▸ hc)
  rw [List.forall_mem_cons] at hdigits
  refine ⟨d, ds, hds, hdigits.1, ?_, hdigits.2⟩
  rintro rfl
  exact head?_repr_ne hn (by rw [hds, List.head?_cons])

/-- The numeral that a binding is written as. -/
def numeralOf (e : Int × Bool) : Numeral := ⟨!e.2, e.1.natAbs.repr.toList⟩

theorem numeralsFrom_signedText {e : Int × Bool} (he : 0 < e.1) {c : Char}
    (hc : c.isDigit = false) (rest : List Char) :
    numeralsFrom none false ((signedText e).toList ++ c :: rest) =
      numeralOf e :: numeralsFrom none (c == '-') rest := by
  obtain ⟨x, b⟩ := e
  obtain ⟨d, ds, hds, hd, hzero, hdigits⟩ := exists_repr_cons (n := x.natAbs) (by omega)
  cases b with
  | true =>
    have htext : (signedText (x, true)).toList = d :: ds := by
      rw [← hds]
      simp only [signedText, if_true]
      rw [toList_toString, if_pos (Int.le_of_lt he)]
      congr 3
      omega
    rw [htext, numeralOf, hds]
    exact numeralsFrom_number hd hzero hdigits false hc rest
  | false =>
    have htext : (signedText (x, false)).toList = '-' :: d :: ds := by
      rw [← hds]
      simp only [signedText, Bool.false_eq_true, if_false]
      rw [toList_toString, if_neg (by omega)]
      congr 4
      omega
    rw [htext, numeralOf, hds]
    exact numeralsFrom_number hd hzero hdigits true hc rest

end Numerals

section Written

variable {t : Table Int Bool}

theorem intercalate_append_zero (ws : List (List Char)) :
    [' '].intercalate (ws ++ [['0']]) = ws.flatMap (fun w => w ++ [' ']) ++ ['0'] := by
  induction ws with
  | nil => rfl
  | cons w rest ih =>
    obtain ⟨u, us, hu⟩ := List.exists_cons_of_ne_nil
      (List.append_ne_nil_of_right_ne_nil rest (List.cons_ne_nil ['0'] []))
    rw [List.cons_append, hu, List.intercalate_cons_cons, ← hu, ih, List.flatMap_cons]
    simp only [List.append_assoc]

theorem toList_write (t : Table Int Bool) :
    (write (some t)).toList =
      'S' :: 'A' :: 'T' :: '\n' :: (t.sorted.flatMap (fun e => (signedText e).toList ++ [' ']) ++
        ['0', '\n']) := by
  have hstart : "SAT\n".toList = ['S', 'A', 'T', '\n'] := rfl
  rw [write, String.toList_append, String.toList_append, String.toList_intercalate, hstart,
    List.map_append, List.map_map]
  show 'S' :: 'A' :: 'T' :: '\n' :: ([' '].intercalate (_ ++ [['0']]) ++ ['\n']) = _
  rw [intercalate_append_zero, List.flatMap_map, List.append_assoc]
  rfl

/-- The numerals of a written assignment are its bindings in increasing order. -/
theorem numerals_write (h : ∀ e ∈ t.sorted, 0 < e.1) :
    numerals (write (some t)).toList = t.sorted.map numeralOf := by
  have hall : ∀ es : List (Int × Bool), (∀ e ∈ es, 0 < e.1) →
      numeralsFrom none false (es.flatMap (fun e => (signedText e).toList ++ [' ']) ++
        ['0', '\n']) = es.map numeralOf := by
    intro es hes
    induction es with
    | nil => rfl
    | cons e rest ih =>
      rw [List.forall_mem_cons] at hes
      rw [List.flatMap_cons, List.append_assoc, List.append_assoc, List.singleton_append,
        numeralsFrom_signedText hes.1 (by decide)]
      show _ :: numeralsFrom none false _ = _
      rw [ih hes.2]
      rfl
  rw [toList_write]
  exact hall t.sorted h

/-- Numerals of new variables are added to the values one after another. -/
theorem assign_map_numeralOf (source : Option String) (t : Table Int Bool)
    {es : List (Int × Bool)} (hes : ∀ e ∈ es, 0 < e.1 ∧ e.1.natAbs < 10 ^ digitLimit)
    (hnew : ∀ e ∈ es, t.get? e.1 = none) (hnd : (es.map Prod.fst).Nodup) :
    assign source t (es.map numeralOf) = .ok (t.insertAll es) := by
  induction es generalizing t with
  | nil => rfl
  | cons e rest ih =>
    rw [List.forall_mem_cons] at hes hnew
    rw [List.map_cons, List.nodup_cons] at hnd
    obtain ⟨⟨hpos, hfits⟩, hes⟩ := hes
    have hshort : ¬ digitLimit < (numeralOf e).digits.length := by
      have hlength := length_repr_le hfits
      unfold numeralOf
      rw [String.length_toList]
      omega
    have hvalue : ((plainValue (numeralOf e).digits : ℕ) : Int) = e.1 := by
      rw [plainValue_eq, numeralOf, Nat.toList_repr, Nat.ofDigitChars_ten_toDigits]
      omega
    have hsign : (!(numeralOf e).negative) = e.2 := Bool.not_not e.2
    rw [List.map_cons, assign, if_neg hshort, hvalue]
    simp only [hnew.1, hsign]
    apply ih _ hes _ hnd.2
    intro e' he'
    have hne : e.1 ≠ e'.1 := by
      intro heq
      exact hnd.1 (heq ▸ List.mem_map_of_mem he')
    rw [Table.get?_insert, if_neg hne]
    exact hnew.2 e' he'

theorem Recordable.mem_sorted (h : Recordable t) {e : Int × Bool} (he : e ∈ t.sorted) :
    0 < e.1 ∧ e.1.natAbs < 10 ^ digitLimit := h e.1 e.2 (t.mem_sorted.1 he)

/-- A written assignment is read entry by entry. -/
theorem parse_write (h : Recordable t) (source : Option String) :
    parse source (write (some t)).toList = .ok (some (Table.ofList t.sorted)) := by
  have hassign := assign_map_numeralOf source Table.empty (fun e he => h.mem_sorted he)
    (fun e _ => Table.get?_empty e.1) t.nodup_sorted
  have hsat : "SAT".toList.isPrefixOf (write (some t)).toList = true := by
    rw [toList_write]
    rfl
  unfold parse
  rw [hsat, numerals_write (fun e he => (h.mem_sorted he).1), hassign]
  rfl

/-- A written assignment is read as the same values. -/
theorem exists_parse_write (h : Recordable t) (source : Option String) :
    ∃ u, parse source (write (some t)).toList = .ok (some u) ∧ ∀ x, u.get? x = t.get? x :=
  ⟨_, parse_write h source, t.get?_ofList_sorted⟩

theorem parse_write_none (source : Option String) : parse source (write none).toList = .ok none := by
  rfl

/-- The text begins with a line of one word. -/
theorem exists_write_line (values : Option (Table Int Bool)) :
    ∃ word rest, (word = "SAT".toList ∨ word = "UNSAT".toList) ∧
      (write values).toList = word ++ '\n' :: rest := by
  cases values with
  | none => exact ⟨_, [], Or.inr rfl, rfl⟩
  | some t => exact ⟨_, _, Or.inl rfl, toList_write t⟩

/-- The text is no problem: its first line is no clause. -/
theorem exists_problem_error (values : Option (Table Int Bool)) (source : Option String) :
    ∃ e, (ProblemText.parse source (write values).toList).result = .error e := by
  obtain ⟨word, rest, hword, htext⟩ := exists_write_line values
  have hunbroken : Unbroken word := by
    rcases hword with rfl | rfl <;> decide
  have hread : ∃ e, ProblemText.readLine source 1 (strip word) ProblemText.Draft.empty = .error e := by
    rcases hword with rfl | rfl <;> exact ⟨_, rfl⟩
  obtain ⟨e, he⟩ := hread
  refine ⟨e, ?_⟩
  have hlines : lines (word ++ '\n' :: rest) = word :: lines rest := linesFrom_append hunbroken [] rest
  unfold ProblemText.parse
  rw [htext, hlines, ProblemText.readLines, he]

theorem unifyBreaks_write (values : Option (Table Int Bool)) :
    unifyBreaks (write values).toList = (write values).toList := by
  have hreturn : '\r' ∉ (write values).toList := by
    cases values with
    | none => decide
    | some t =>
      rw [toList_write]
      simp only [List.mem_cons, List.mem_append, List.mem_flatMap, List.not_mem_nil, or_false]
      rintro (hc | hc | hc | hc | ⟨e, -, hc | hc⟩ | hc | hc)
      case inr.inr.inr.inr.inl.inl => exact absurd (numeral_of_mem_toString hc) (by decide)
      all_goals exact absurd hc (by decide)
  exact unifyBreaks_eq_self hreturn

end Written

end SolutionText

end FactorSearch
