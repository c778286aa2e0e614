import FactorSearch.Log
import FactorSearch.Proofs.Assignment
import FactorSearch.Proofs.ClauseLines

/-!
The variables of a problem that has been read. A number that is read has at most as many
digits as can be written, so every literal of the problem can be written again. The root
of the problem fixes nothing, and no solution is recorded yet.
-/

namespace FactorSearch

namespace Text

theorem lt_of_digit? {c : Char} {d : ℕ} (h : digit? c = some d) : d < 10 := by
  obtain ⟨z, hz, rfl⟩ := Option.map_eq_some_iff.1 h
  have hbounds := List.find?_some hz
  rw [Bool.and_eq_true, decide_eq_true_eq, decide_eq_true_eq] at hbounds
  omega

theorem lt_of_numeralChar {c : Char} {d : ℕ} (h : numeralChar c = .digit d) : d < 10 := by
  unfold numeralChar at h
  split at h
  · cases h
  split at h
  · cases h
  split at h
  · cases h
  split at h
  · cases h
  split at h
  · rename_i hd
    cases h
    exact lt_of_digit? hd
  · cases h

theorem lt_of_mem_digitsAfter {done : List ℕ} {cs : List NumeralChar} {run : DigitRun}
    (h : digitsAfter done cs = some run) (hdone : ∀ d ∈ done, d < 10)
    (hcs : ∀ d, NumeralChar.digit d ∈ cs → d < 10) : ∀ d ∈ run.digits, d < 10 := by
  fun_induction digitsAfter done cs with
  | case1 done d rest ih =>
    apply ih h
    · exact List.forall_mem_cons.2 ⟨hcs d List.mem_cons_self, hdone⟩
    · exact fun e he => hcs e (List.mem_cons_of_mem _ he)
  | case2 done d rest ih =>
    apply ih h
    · exact List.forall_mem_cons.2 ⟨hcs d (List.mem_cons_of_mem _ List.mem_cons_self), hdone⟩
    · exact fun e he => hcs e (List.mem_cons_of_mem _ (List.mem_cons_of_mem _ he))
  | case3 => cases h
  | case4 =>
    cases h
    exact fun d hd => hdone d (List.mem_reverse.1 hd)

theorem valueOf_lt {ds : List ℕ} (h : ∀ d ∈ ds, d < 10) : valueOf ds < 10 ^ ds.length := by
  have hfrom : ∀ n, ds.foldl (fun n d => 10 * n + d) n < (n + 1) * 10 ^ ds.length := by
    induction ds with
    | nil =>
      intro n
      rw [List.foldl_nil, List.length_nil, Nat.pow_zero, Nat.mul_one]
      exact Nat.lt_succ_self n
    | cons d rest ih =>
      intro n
      rw [List.forall_mem_cons] at h
      obtain ⟨hd, hrest⟩ := h
      rw [List.foldl_cons, List.length_cons]
      calc rest.foldl (fun n d => 10 * n + d) (10 * n + d)
          < (10 * n + d + 1) * 10 ^ rest.length := ih hrest (10 * n + d)
        _ ≤ ((n + 1) * 10) * 10 ^ rest.length := Nat.mul_le_mul_right _ (by omega)
        _ = (n + 1) * 10 ^ (rest.length + 1) := by rw [Nat.mul_assoc, Nat.pow_succ']
  have hzero := hfrom 0
  rwa [Nat.zero_add, Nat.one_mul] at hzero

theorem lt_of_mem_digitRun {cs : List NumeralChar} {run : DigitRun} (h : digitRun cs = some run)
    (hcs : ∀ d, NumeralChar.digit d ∈ cs → d < 10) : ∀ d ∈ run.digits, d < 10 := by
  unfold digitRun at h
  split at h
  · rename_i d rest
    apply lt_of_mem_digitsAfter h
    · exact List.forall_mem_cons.2 ⟨hcs d List.mem_cons_self, List.forall_mem_nil _⟩
    · exact fun e he => hcs e (List.mem_cons_of_mem _ he)
  · cases h

theorem splitSign_subset (cs : List NumeralChar) : (splitSign cs).2 ⊆ cs := by
  fun_cases splitSign cs with
  | case1 rest => exact List.subset_cons_self _ rest
  | case2 rest => exact List.subset_cons_self _ rest
  | case3 => exact List.Subset.refl cs

/-- An integer that is read can be written. -/
theorem natAbs_lt_of_parseInteger {cs : List Char} {n : Int} (h : parseInteger cs = .ok n) :
    n.natAbs < 10 ^ digitLimit := by
  have hchars : ∀ d, NumeralChar.digit d ∈ (splitSign ((cs.map numeralChar).dropWhile
      (· = .blank))).2 → d < 10 := by
    intro d hd
    obtain ⟨c, -, hc⟩ := List.mem_map.1 ((List.dropWhile_sublist _).subset
      (splitSign_subset _ hd))
    exact lt_of_numeralChar hc
  unfold parseInteger at h
  simp only at h
  split at h
  · cases h
  rename_i run hrun
  split at h
  · cases h
  rename_i hfits
  split at h
  · have hlt : valueOf run.digits < 10 ^ digitLimit :=
      Nat.lt_of_lt_of_le (valueOf_lt (lt_of_mem_digitRun hrun hchars))
        (Nat.pow_le_pow_right (by decide) (by omega))
    cases h
    split <;> omega
  · cases h

end Text

open Text

namespace Clause

/-- The literals on other variables stay, and on its own variable there is at most the new one. -/
theorem eq_or_of_mem_insert {c : Clause} {l m : Literal}
    (h : l ∈ (c.insert m).literals) : l = m ∨ l.var ≠ m.var ∧ l ∈ c.literals := by
  rw [literals_insert] at h
  cases hp : c.polarity? m.var with
  | none =>
    rw [hp] at h
    rcases List.mem_append.1 h with hl | hl
    · refine Or.inr ⟨fun heq => ?_, hl⟩
      exact (polarity?_eq_none_iff c m.var).1 hp (mem_vars.2 ⟨l, hl, heq⟩)
    · exact Or.inl (List.mem_singleton.1 hl)
  | some p =>
    rw [hp] at h
    by_cases hsame : p = m.positive
    · simp only [hsame, if_true] at h
      refine or_iff_not_imp_right.2 fun hne => ?_
      have hvar : l.var = m.var := not_not.1 fun hvar => hne ⟨hvar, h⟩
      have hl := polarity?_of_mem h
      rw [hvar, hp, Option.some.injEq] at hl
      exact Literal.ext hvar (hl.symm.trans hsame)
    · simp only [hsame, if_false] at h
      obtain ⟨hl, hvar⟩ := List.mem_filter.1 h
      exact Or.inr ⟨bne_iff_ne.1 hvar, hl⟩

theorem mem_foldl_insert {ls : List Literal} {c : Clause} {l : Literal}
    (h : l ∈ (ls.foldl insert c).literals) : l ∈ c.literals ∨ l ∈ ls := by
  induction ls generalizing c with
  | nil => exact Or.inl h
  | cons m rest ih =>
    rw [List.mem_cons]
    rcases ih h with hc | hrest
    · rcases eq_or_of_mem_insert hc with hlm | ⟨-, hl⟩
      · exact Or.inr (Or.inl hlm)
      · exact Or.inl hl
    · exact Or.inr (Or.inr hrest)

/-- A clause holds only literals that were given. -/
theorem mem_ofLiterals {ls : List Literal} {l : Literal} (h : l ∈ (ofLiterals ls).literals) :
    l ∈ ls := (mem_foldl_insert h).resolve_left List.not_mem_nil

end Clause

namespace ProblemText

theorem writable_of_literalOf {token : List Char} {l : Literal} (h : literalOf token = .ok l) :
    Writable l := by
  unfold literalOf at h
  split at h
  · cases h
  rename_i n hn
  split at h
  · cases h
  rename_i m hl
  cases h
  have hlt := natAbs_lt_of_parseInteger hn
  have hvar : l.var = n.natAbs := by
    unfold Literal.ofInt at hl
    split at hl
    · cases hl
    · cases hl
      rfl
  have habs := natAbs_toInt l
  unfold Writable
  omega

theorem exists_ok_of_mapM {α β ε : Type} {f : α → Except ε β} {xs : List α} {ys : List β}
    (h : xs.mapM f = .ok ys) {x : α} (hx : x ∈ xs) : ∃ y ∈ ys, f x = .ok y := by
  have hmem := List.mem_map_of_mem (f := f) hx
  rw [mapM_eq_ok_iff.1 h] at hmem
  obtain ⟨y, hy, heq⟩ := List.mem_map.1 hmem
  exact ⟨y, hy, heq.symm⟩

theorem exists_mem_of_mapM {α β ε : Type} {f : α → Except ε β} {xs : List α} {ys : List β}
    (h : xs.mapM f = .ok ys) {y : β} (hy : y ∈ ys) : ∃ x ∈ xs, f x = .ok y := by
  have hmem : Except.ok y ∈ xs.map f := mapM_eq_ok_iff.1 h ▸ List.mem_map_of_mem hy
  exact List.mem_map.1 hmem

theorem forall_mem_mapM {α β ε : Type} {f : α → Except ε β} {P : β → Prop}
    (hf : ∀ x y, f x = .ok y → P y) {xs : List α} {ys : List β} (h : xs.mapM f = .ok ys) :
    ∀ y ∈ ys, P y := by
  intro y hy
  obtain ⟨x, -, hx⟩ := exists_mem_of_mapM h hy
  exact hf x y hx

theorem writable_of_literalsOf {line : List Char} {ls : List Literal}
    (h : literalsOf line = .ok ls) : ∀ l ∈ ls, Writable l := by
  unfold literalsOf at h
  simp only at h
  split at h
  · exact forall_mem_mapM (fun _ _ => writable_of_literalOf) h
  · cases h

/-- Every literal that has been read can be written again. -/
def Draft.Writable (d : Draft) : Prop := ∀ c ∈ d.clauses, ∀ l ∈ c.literals, ProblemText.Writable l

variable {d e : Draft}

theorem Draft.Writable.addClause (hd : d.Writable) {ls : List Literal}
    (hls : ∀ l ∈ ls, ProblemText.Writable l) (lineNo : ℕ) (line : List Char) :
    (addClause d lineNo line ls).Writable := by
  unfold ProblemText.addClause
  simp only
  split
  · exact hd
  · exact List.forall_mem_cons.2 ⟨fun l hl => hls l (Clause.mem_ofLiterals hl), hd⟩

/-- A comment changes nothing but the annotations. -/
theorem annotate_eq {line : List Char} {ops : List Operand} (h : annotate d line ops = .ok e) :
    e = { d with annotations := e.annotations } := by
  fun_induction annotate d line ops with
  | case1 =>
    cases h
    rfl
  | case2 d operand rest _ ih => exact ih h
  | case3 d operand rest _ _ ih => exact ih h
  | case4 => cases h
  | case5 d operand rest _ text _ vars _ ih => exact ih h

theorem Draft.Writable.readLine (hd : d.Writable) {source : Option String} {lineNo : ℕ}
    {line : List Char} (h : readLine source lineNo line d = .ok e) : e.Writable := by
  unfold ProblemText.readLine at h
  split at h
  · cases h
    exact hd
  · cases h
    exact hd
  · split at h
    · rename_i e' hannotate
      cases h
      unfold Draft.Writable
      rw [annotate_eq hannotate]
      exact hd
    · cases h
  · split at h
    · rename_i ls hls
      cases h
      exact hd.addClause (writable_of_literalsOf hls) lineNo line
    · cases h

theorem Draft.Writable.readLines (hd : d.Writable) (source : Option String) (lineNo : ℕ)
    (lines : List (List Char)) : (readLines source lineNo d lines).1.Writable := by
  induction lines generalizing lineNo d with
  | nil => exact hd
  | cons line rest ih =>
    unfold ProblemText.readLines
    split
    · rename_i e he
      exact ih (hd.readLine he) (lineNo + 1)
    · exact hd

theorem clauses_finish {source : Option String} {p : Problem} (h : finish source d = .ok p) :
    p.clauses = d.clauses.reverse := by
  unfold finish at h
  split at h <;> cases h
  rfl

/-- The literals of a problem that is read can be written again. -/
theorem writable_of_parse {source : Option String} {text : List Char} {p : Problem}
    (h : (parse source text).result = .ok p) : ∀ c ∈ p.clauses, ∀ l ∈ c.literals, Writable l := by
  have hempty : Draft.empty.Writable := List.forall_mem_nil _
  have hdraft := hempty.readLines source 1 (lines text)
  unfold parse at h
  simp only at h
  split at h
  · cases h
  · rw [clauses_finish h]
    exact fun c hc => hdraft c (List.mem_reverse.1 hc)

end ProblemText

namespace Factorisation

/-- A problem as it is read: nothing is fixed, and each of its literals can be written. -/
structure Readable (f : Factorisation) : Prop where
  path_root : f.root.path = []
  solution_none : f.solution = none
  writable : ∀ c ∈ f.root.clauses, ∀ l ∈ c.literals, ProblemText.Writable l

/-- The variables of the problem are positive, and can be written. -/
theorem Readable.bounds_of_mem_vars {f : Factorisation} (hf : f.Readable) {x : Int}
    (hx : x ∈ f.vars) : 0 < x ∧ x.natAbs < 10 ^ digitLimit := by
  obtain ⟨c, hc, hmem⟩ := Restriction.mem_varsOf.1 hx
  obtain ⟨l, hl, rfl⟩ := List.mem_map.1 hmem
  have hlt := hf.writable c hc l hl
  have habs := ProblemText.natAbs_toInt l
  have hpos := l.var_pos
  unfold ProblemText.Writable at hlt
  exact ⟨hpos, by omega⟩

theorem readable_ofText {source : Option String} {text : List Char} {f : Factorisation}
    (h : (ofText source text).2 = .ok f) : f.Readable := by
  unfold ofText at h
  simp only at h
  split at h
  · rename_i p hp
    cases h
    refine ⟨rfl, rfl, ?_⟩
    intro c hc
    exact ProblemText.writable_of_parse hp c (Clause.distinct_subset p.clauses hc)
  · cases h

end Factorisation

end FactorSearch
