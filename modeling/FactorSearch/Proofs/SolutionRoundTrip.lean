import FactorSearch.Proofs.ReadVariables
import FactorSearch.Proofs.Recording

/-!
Solutions read and written again. Every numeral that is found in a text begins with a digit
other than zero, so it stands for a positive variable, and it has no more digits than can be
written. So whatever is read of a text can be written, and is then read as the same values.
-/

namespace FactorSearch

open Text

/-- The tables bind the same keys to the same values. -/
def Table.Agrees (t u : Table Int Bool) : Prop := ∀ x, t.get? x = u.get? x

namespace SolutionText

section Numerals

/-- Digits that do not begin with a zero. -/
structure Plain (ds : List Char) : Prop where
  digits : ∀ c ∈ ds, c.isDigit = true
  leads : ∃ d rest, ds = d :: rest ∧ d ≠ '0'

theorem Plain.concat {ds : List Char} (h : Plain ds) {c : Char} (hc : c.isDigit = true) :
    Plain (ds ++ [c]) where
  digits := by
    intro e he
    rcases List.mem_append.1 he with he | he
    · exact h.digits e he
    · rw [List.mem_singleton.1 he]
      exact hc
  leads := by
    obtain ⟨d, rest, rfl, hd⟩ := h.leads
    exact ⟨d, rest ++ [c], rfl, hd⟩

/-- Each numeral that is completed or found is plain if the one begun is. -/
theorem plain_of_mem_numeralsFrom {open? : Option Numeral} {minus : Bool} {cs : List Char}
    (hopen : ∀ n, open? = some n → Plain n.digits.reverse) :
    ∀ m ∈ numeralsFrom open? minus cs, Plain m.digits := by
  fun_induction numeralsFrom open? minus cs with
  | case1 open? =>
    intro m hm
    rw [Option.mem_toList, Option.map_eq_some_iff] at hm
    obtain ⟨n, hn, rfl⟩ := hm
    exact hopen n hn
  | case2 minus c rest n hc ih =>
    apply ih
    intro m hm
    cases hm
    rw [List.reverse_cons]
    exact (hopen n rfl).concat hc
  | case3 minus c rest n hc ih =>
    exact List.forall_mem_cons.2 ⟨hopen n rfl, ih fun _ hm => nomatch hm⟩
  | case4 minus c rest hc ih =>
    apply ih
    intro m hm
    cases hm
    rw [Bool.and_eq_true, bne_iff_ne] at hc
    exact ⟨fun e he => by rw [List.mem_singleton.1 he]; exact hc.1, c, [], rfl, hc.2⟩
  | case5 minus c rest hc ih => exact ih fun _ hm => nomatch hm

theorem plain_of_mem_numerals {cs : List Char} : ∀ m ∈ numerals cs, Plain m.digits :=
  plain_of_mem_numeralsFrom fun _ hn => nomatch hn

theorem le_foldl_digits (ds : List Char) (n : ℕ) :
    n ≤ ds.foldl (fun n c => 10 * n + (c.toNat - 48)) n := by
  induction ds generalizing n with
  | nil => exact Nat.le_refl n
  | cons d rest ih =>
    have hrest := ih (10 * n + (d.toNat - 48))
    rw [List.foldl_cons]
    omega

theorem Plain.value_pos {ds : List Char} (h : Plain ds) : 0 < plainValue ds := by
  obtain ⟨d, rest, rfl, hzero⟩ := h.leads
  obtain ⟨hlow, -⟩ := toNat_bounds_of_isDigit (h.digits d List.mem_cons_self)
  have hne : d.toNat ≠ 48 := fun heq => hzero (Char.toNat_inj.1 heq)
  have hrest := le_foldl_digits rest (10 * 0 + (d.toNat - 48))
  rw [plainValue, List.foldl_cons]
  omega

theorem plainValue_lt {ds : List Char} (h : ∀ c ∈ ds, c.isDigit = true) :
    plainValue ds < 10 ^ ds.length := by
  have hdigits : ∀ d ∈ plainDigits ds, d < 10 := by
    intro d hd
    obtain ⟨c, hc, rfl⟩ := List.mem_map.1 hd
    obtain ⟨hlow, hhigh⟩ := toNat_bounds_of_isDigit (h c hc)
    omega
  have hlt := valueOf_lt hdigits
  rw [valueOf_plainDigits, ← plainValue_eq] at hlt
  unfold plainDigits at hlt
  rwa [List.length_map] at hlt

end Numerals

section Read

variable {source : Option String} {t u : Table Int Bool} {text : List Char}

theorem recordable_empty : Recordable Table.empty := by
  intro x b hx
  rw [Table.get?_empty] at hx
  cases hx

theorem Recordable.insert (ht : Recordable t) {x : Int} (hx : 0 < x ∧ x.natAbs < 10 ^ digitLimit)
    (b : Bool) : Recordable (t.insert x b) := by
  intro y a hy
  rw [Table.get?_insert] at hy
  split at hy
  · rename_i heq
    exact heq ▸ hx
  · exact ht y a hy

theorem recordable_of_assign {ns : List Numeral} (ht : Recordable t)
    (hns : ∀ n ∈ ns, Plain n.digits) (h : assign source t ns = .ok u) : Recordable u := by
  fun_induction assign source t ns with
  | case1 t =>
    cases h
    exact ht
  | case2 => cases h
  | case3 t n rest =>
    rename_i ih
    exact ih ht (List.forall_mem_cons.1 hns).2 h
  | case4 => cases h
  | case5 t n rest hlong =>
    rename_i ih
    rw [List.forall_mem_cons] at hns
    obtain ⟨hn, hrest⟩ := hns
    have hpos := hn.value_pos
    have hlt : plainValue n.digits < 10 ^ digitLimit :=
      Nat.lt_of_lt_of_le (plainValue_lt hn.digits) (Nat.pow_le_pow_right (by omega) (by omega))
    exact ih (ht.insert ⟨by omega, by omega⟩ _) hrest h

/-- What is read of a text can be written. -/
theorem recordable_of_parse (h : parse source text = .ok (some t)) : Recordable t := by
  unfold parse at h
  split at h
  · cases hassign : assign source Table.empty (numerals text) with
    | error e =>
      rw [hassign] at h
      cases h
    | ok u =>
      rw [hassign] at h
      cases h
      exact recordable_of_assign recordable_empty plain_of_mem_numerals hassign
  · cases h

/-- What is written for positive variables, or for no solution, is read as such, and what is
read of any text, which is about positive variables, is read again once it has been written. -/
theorem parse_write_round_trip (source source' : Option String) :
    parse source (write none).toList = .ok none ∧
    (∀ t, Recordable t →
      ∃ u, parse source (write (some t)).toList = .ok (some u) ∧ u.Agrees t) ∧
    ∀ text values, parse source text = .ok values →
      (∀ t, values = some t → Recordable t ∧ ∀ x ∈ t.keys, 0 < x) ∧
      ∃ again, parse source' (write values).toList = .ok again ∧
        Option.Rel Table.Agrees again values := by
  refine ⟨parse_write_none source, fun t ht => exists_parse_write ht source, ?_⟩
  intro text values h
  have hrecordable : ∀ t, values = some t → Recordable t := by
    intro t ht
    subst ht
    exact recordable_of_parse h
  refine ⟨fun t ht => ⟨hrecordable t ht, fun x hx => ?_⟩, ?_⟩
  · obtain ⟨b, hb⟩ := Option.isSome_iff_exists.1 ((t.contains_iff x).2 hx)
    exact (hrecordable t ht x b hb).1
  · cases values with
    | none => exact ⟨none, parse_write_none source', .none⟩
    | some t =>
      obtain ⟨u, hu, hagrees⟩ := exists_parse_write (hrecordable t rfl) source'
      exact ⟨some u, hu, .some hagrees⟩

/-- A minus sign counts when a numeral that does not begin with a zero follows at once. -/
def noisy : String := "SAT -07,--12x -12 0"

theorem parse_write_round_trip_noisy :
    ∃ t again, parse none noisy.toList = .ok (some t) ∧
      t.entries = [(7, true), (12, false)] ∧ Recordable t ∧
      parse none (write (some t)).toList = .ok again ∧
      Option.Rel Table.Agrees again (some t) := by
  obtain ⟨t, ht, hentries⟩ : ∃ t, parse none noisy.toList = .ok (some t) ∧
      t.entries = [(7, true), (12, false)] := ⟨_, rfl, rfl⟩
  obtain ⟨hread, again, hagain, hrel⟩ := (parse_write_round_trip none none).2.2 _ _ ht
  exact ⟨t, again, ht, hentries, (hread t rfl).1, hagain, hrel⟩

end Read

end SolutionText

end FactorSearch
