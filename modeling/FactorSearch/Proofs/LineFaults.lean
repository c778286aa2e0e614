import FactorSearch.Proofs.Annotations
import FactorSearch.Proofs.ReadClauses

/-!
What is wrong with a line. A clause line is at fault for its end or for the first of its tokens
that is no literal. A comment is at fault for the first operand, of those not annotated before,
that it annotates with something else than positive integers; the operands before it are settled
by then. Whatever is read without a fault has none of these, so the fault that is reported is
the one that the line has.
-/

namespace FactorSearch

open Text

namespace ProblemText

/-- The first item of a list that has a property. -/
def IsFirst {α : Type} (P : α → Prop) (xs : List α) (x : α) : Prop :=
  ∃ before after, xs = before ++ x :: after ∧ P x ∧ ∀ y ∈ before, ¬ P y

/-- Of the items of a list that have a property after the items before them, one is the first. -/
theorem eq_of_first {α : Type} {Q : List α → α → Prop} {before before' after after' : List α}
    {x x' : α} (heq : before ++ x :: after = before' ++ x' :: after') (h : Q before x)
    (hnone : ∀ b y a, before = b ++ y :: a → ¬ Q b y) (h' : Q before' x')
    (hnone' : ∀ b y a, before' = b ++ y :: a → ¬ Q b y) : before = before' ∧ x = x' := by
  rcases List.append_eq_append_iff.1 heq with ⟨mid, rfl, hmid⟩ | ⟨mid, rfl, hmid⟩
  · cases mid with
    | nil =>
      cases hmid
      exact ⟨(List.append_nil before).symm, rfl⟩
    | cons y mid =>
      cases hmid
      exact absurd h (hnone' before x mid rfl)
  · cases mid with
    | nil =>
      cases hmid
      exact ⟨List.append_nil before', rfl⟩
    | cons y mid =>
      cases hmid
      exact absurd h' (hnone before' x' mid rfl)

theorem IsFirst.unique {α : Type} {P : α → Prop} {xs : List α} {x y : α} (hx : IsFirst P xs x)
    (hy : IsFirst P xs y) : x = y := by
  obtain ⟨before, after, rfl, hPx, hnone⟩ := hx
  obtain ⟨before', after', heq, hPy, hnone'⟩ := hy
  refine (eq_of_first (Q := fun _ => P) heq hPx ?_ hPy ?_).2
  · rintro b z a rfl
    exact hnone z (List.mem_append_right b List.mem_cons_self)
  · rintro b z a rfl
    exact hnone' z (List.mem_append_right b List.mem_cons_self)

/-- The text of an integer other than zero. -/
def IsLiteral (token : List Char) : Prop := ∃ n, parseInteger token = .ok n ∧ n ≠ 0

/-- The text of a positive integer, perhaps between blanks. -/
def IsVariable (item : List Char) : Prop := ∃ n, parseInteger (strip item) = .ok n ∧ 0 < n

section Clauses

variable {line : List Char} {fault : ProblemFault}

/-- A clause line that does not end with a zero, or has a token before it that is no literal. -/
def ClauseMalformed (line : List Char) : Prop :=
  isClauseLine line = true ∧
    ((words line).getLast? ≠ some ['0'] ∨ ∃ token ∈ (words line).dropLast, ¬ IsLiteral token)

/-- What is said of the tokens of a clause line. -/
inductive ClauseFault (line : List Char) : ProblemFault → Prop
  | unterminated (h : (words line).getLast? ≠ some ['0']) : ClauseFault line .unterminated
  | invalidLiteral {token : List Char} (h : (words line).getLast? = some ['0'])
      (first : IsFirst (fun t => ¬ IsLiteral t) (words line).dropLast token) :
      ClauseFault line (.invalidLiteral token)

theorem ClauseFault.malformed (h : ClauseFault line fault) (hline : isClauseLine line = true) :
    ClauseMalformed line := by
  refine ⟨hline, ?_⟩
  cases h with
  | unterminated h => exact .inl h
  | invalidLiteral _ first =>
    obtain ⟨before, after, htokens, hinvalid, -⟩ := first
    exact .inr ⟨_, htokens ▸ List.mem_append_right before List.mem_cons_self, hinvalid⟩

theorem exists_ofInt {n : Int} (h : n ≠ 0) : ∃ l, Literal.ofInt n = .ok l ∧ l.toInt = n := by
  unfold Literal.ofInt
  rw [dif_neg h]
  refine ⟨_, rfl, ?_⟩
  unfold Literal.toInt
  by_cases hpos : 0 < n
  · rw [if_pos (decide_eq_true hpos)]
    exact Int.natAbs_of_nonneg hpos.le
  · rw [if_neg (by rw [decide_eq_true_eq]; exact hpos)]
    show -(n.natAbs : Int) = n
    omega

/-- A token is a literal, whose integer it is read as, or it is reported. -/
theorem literalOf_cases (token : List Char) :
    (IsLiteral token ∧ ∃ l, literalOf token = .ok l ∧ parseInteger token = .ok l.toInt) ∨
      (¬ IsLiteral token ∧ literalOf token = .error (.invalidLiteral token)) := by
  unfold literalOf IsLiteral
  cases hread : parseInteger token with
  | error e => exact .inr ⟨by simp, rfl⟩
  | ok n =>
    by_cases hzero : n = 0
    · subst hzero
      exact .inr ⟨by simp, rfl⟩
    · obtain ⟨l, hl, hinteger⟩ := exists_ofInt hzero
      exact .inl ⟨⟨n, rfl, hzero⟩, l, by simp only [hl], by rw [hinteger]⟩

theorem clauseFault_of_literalsOf (h : literalsOf line = .error fault) : ClauseFault line fault := by
  unfold literalsOf at h
  simp only at h
  split at h
  · rename_i hlast
    obtain ⟨before, token, after, htokens, htoken, hbefore⟩ := exists_of_mapM_eq_error h
    rcases literalOf_cases token with ⟨-, l, hl, -⟩ | ⟨hinvalid, hreport⟩
    · rw [htoken] at hl
      cases hl
    · rw [htoken] at hreport
      cases hreport
      refine .invalidLiteral hlast ⟨before, after, htokens, hinvalid, fun t ht => ?_⟩
      rcases literalOf_cases t with ⟨hliteral, -⟩ | ⟨-, hreport⟩
      · exact not_not.2 hliteral
      · obtain ⟨l, hl⟩ := hbefore t ht
        rw [hreport] at hl
        cases hl
  · rename_i hlast
    cases h
    exact .unterminated hlast

/-- The tokens of a clause line that is read, once more as integers, are its literals. -/
theorem mapM_parseInteger_of_literalsOf {ls : List Literal} (h : literalsOf line = .ok ls) :
    (words line).dropLast.mapM parseInteger = .ok (ls.map Literal.toInt) := by
  unfold literalsOf at h
  simp only at h
  split at h
  · apply mapM_map_of_mapM _ h
    intro token l hl
    rcases literalOf_cases token with ⟨-, m, hm, hinteger⟩ | ⟨-, hreport⟩
    · rw [hl] at hm
      cases hm
      exact hinteger
    · rw [hl] at hreport
      cases hreport
  · cases h

theorem not_clauseMalformed_of_literalsOf {ls : List Literal} (h : literalsOf line = .ok ls) :
    ¬ ClauseMalformed line := by
  unfold literalsOf at h
  simp only at h
  split at h
  · rename_i hlast
    intro hmalformed
    obtain ⟨-, hend | ⟨token, htoken, hinvalid⟩⟩ := hmalformed
    · exact hend hlast
    · obtain ⟨l, -, hl⟩ := exists_ok_of_mapM h htoken
      rcases literalOf_cases token with ⟨hliteral, -⟩ | ⟨-, hreport⟩
      · exact hinvalid hliteral
      · rw [hl] at hreport
        cases hreport
  · cases h

end Clauses

section Lists

variable {o : Operand} {text : List Char}

/-- What is said of the list of an operand. -/
inductive ListFault (o : Operand) (text : List Char) : ProblemFault → Prop
  | malformed (h : ∃ item ∈ fields (· = ',') text, ∀ n, parseInteger (strip item) ≠ .ok n) :
      ListFault o text (.malformedList o text)
  | notPositive (hread : ∀ item ∈ fields (· = ',') text, ∃ n, parseInteger (strip item) = .ok n)
      (h : ∃ item ∈ fields (· = ',') text, ¬ IsVariable item) : ListFault o text (.notPositive o)

theorem ListFault.exists_not_isVariable {fault : ProblemFault} (h : ListFault o text fault) :
    ∃ item ∈ fields (· = ',') text, ¬ IsVariable item := by
  cases h with
  | malformed h =>
    obtain ⟨item, hitem, hunread⟩ := h
    exact ⟨item, hitem, fun hread => hread.elim fun n hn => hunread n hn.1⟩
  | notPositive _ h => exact h

theorem fieldsFrom_ne_nil (separates : Char → Bool) (field cs : List Char) :
    fieldsFrom separates field cs ≠ [] := by
  induction cs generalizing field with
  | nil => exact List.cons_ne_nil _ _
  | cons c rest ih =>
    rw [fieldsFrom]
    split
    · exact List.cons_ne_nil _ _
    · exact ih _

theorem listFault_of_parseList {fault : ProblemFault} (h : parseList o text = .error fault) :
    ListFault o text fault := by
  unfold parseList at h
  split at h
  · rename_i e hread
    cases h
    obtain ⟨before, item, after, hitems, hitem, -⟩ := exists_of_mapM_eq_error hread
    refine .malformed ⟨item, hitems ▸ List.mem_append_right before List.mem_cons_self, ?_⟩
    intro n hn
    rw [hitem] at hn
    cases hn
  · rename_i vars hread
    split at h
    · cases h
    · rename_i hpositive
      cases h
      simp only [List.all_eq_true, decide_eq_true_eq, not_forall] at hpositive
      obtain ⟨x, hx, hle⟩ := hpositive
      obtain ⟨item, hitem, hvalue⟩ := exists_mem_of_mapM hread hx
      refine .notPositive (fun i hi => ?_) ⟨item, hitem, fun hvariable => ?_⟩
      · obtain ⟨n, -, hn⟩ := exists_ok_of_mapM hread hi
        exact ⟨n, hn⟩
      · obtain ⟨n, hn, hpos⟩ := hvariable
        rw [hvalue] at hn
        cases hn
        exact hle hpos

/-- A list that is read has positive integers only, at least one. -/
theorem of_parseList {vars : List Int} (h : parseList o text = .ok vars) :
    (∀ item ∈ fields (· = ',') text, IsVariable item) ∧ vars ≠ [] ∧ ∀ x ∈ vars, 0 < x := by
  unfold parseList at h
  split at h
  · cases h
  · rename_i read hread
    split at h
    · rename_i hpositive
      cases h
      simp only [List.all_eq_true, decide_eq_true_eq] at hpositive
      refine ⟨fun item hitem => ?_, ?_, hpositive⟩
      · obtain ⟨n, hn, hvalue⟩ := exists_ok_of_mapM hread hitem
        exact ⟨n, hvalue, hpositive n hn⟩
      · rintro rfl
        have hitems := mapM_eq_ok_iff.1 hread
        exact fieldsFrom_ne_nil _ [] text (List.map_eq_nil_iff.1 hitems)
    · cases h

end Lists

section Comments

variable {line : List Char} {d e : Draft} {ops : List Operand}

/-- What the bits of an operand are before and after a comment. -/
inductive Settles (line : List Char) (o : Operand) : Option (List Int) → Option (List Int) → Prop
  | known (vars : List Int) : Settles line o (some vars) (some vars)
  | silent (h : ∀ text, ¬ IsAnnotation o line text) : Settles line o none none
  | read {text : List Char} {vars : List Int} (h : IsAnnotation o line text)
      (hlist : parseList o text = .ok vars) : Settles line o none (some vars)

/-- What a comment says of an operand either settles its bits, or the list is at fault. -/
theorem annotate_cons_cases (d : Draft) (line : List Char) (o : Operand) (rest : List Operand) :
    (∃ d', annotate d line (o :: rest) = annotate d' line rest ∧
      Settles line o (d.bits? o) (d'.bits? o) ∧ ∀ p, o ≠ p → d'.bits? p = d.bits? p) ∨
    (∃ text fault, annotate d line (o :: rest) = .error fault ∧ d.bits? o = none ∧
      IsAnnotation o line text ∧ parseList o text = .error fault) := by
  cases hknown : d.bits? o with
  | some vars =>
    refine .inl ⟨d, ?_, ?_, fun _ _ => rfl⟩
    · rw [annotate, if_pos (by rw [hknown]; rfl)]
    · rw [hknown]
      exact .known vars
  | none =>
    have hnew : ¬ (d.bits? o).isSome = true := by simp [hknown]
    rw [annotate, if_neg hnew]
    cases hline : annotation? o line with
    | none => exact .inl ⟨d, rfl, hknown ▸ .silent (annotation?_eq_none_iff.1 hline), fun _ _ => rfl⟩
    | some text =>
      have hshape := annotation?_eq_some_iff.1 hline
      cases hlist : parseList o text with
      | error fault => exact .inr ⟨text, fault, by simp only [hlist], rfl, hshape, hlist⟩
      | ok vars =>
        refine .inl ⟨{ d with annotations := (o, vars) :: d.annotations }, by simp only [hlist], ?_, ?_⟩
        · rw [bits?_annotations_cons, if_pos rfl]
          exact .read hshape hlist
        · intro p hp
          rw [bits?_annotations_cons, if_neg hp]

theorem bits?_annotate_of_notMem (h : annotate d line ops = .ok e) {o : Operand} (ho : o ∉ ops) :
    e.bits? o = d.bits? o := by
  induction ops generalizing d with
  | nil =>
    cases h
    rfl
  | cons p rest ih =>
    rw [List.mem_cons, not_or] at ho
    rcases annotate_cons_cases d line p rest with ⟨d', hstep, -, hother⟩ | ⟨text, fault, hstep, -⟩
    · rw [ih (hstep ▸ h) ho.2, hother o (Ne.symm ho.1)]
    · rw [hstep] at h
      cases h

/-- A comment that is read settles every operand. -/
theorem settles_of_annotate (hnodup : ops.Nodup) (h : annotate d line ops = .ok e) {o : Operand}
    (ho : o ∈ ops) : Settles line o (d.bits? o) (e.bits? o) := by
  induction ops generalizing d with
  | nil => exact absurd ho List.not_mem_nil
  | cons p rest ih =>
    rw [List.nodup_cons] at hnodup
    rcases annotate_cons_cases d line p rest with ⟨d', hstep, hsettles, hother⟩ | ⟨_, _, hstep, -⟩
    · rw [hstep] at h
      rcases List.mem_cons.1 ho with rfl | hlater
      · rwa [bits?_annotate_of_notMem h hnodup.1]
      · have hne : p ≠ o := fun heq => hnodup.1 (heq ▸ hlater)
        rw [← hother o hne]
        exact ih hnodup.2 h hlater
    · rw [hstep] at h
      cases h

/-- A comment is at fault for the list of an operand, when the operands before it are settled. -/
theorem exists_of_annotate_eq_error {fault : ProblemFault} (hnodup : ops.Nodup)
    (h : annotate d line ops = .error fault) :
    ∃ before o after text, ops = before ++ o :: after ∧ d.bits? o = none ∧
      IsAnnotation o line text ∧ parseList o text = .error fault ∧
      ∀ p ∈ before, ∃ now, Settles line p (d.bits? p) now := by
  induction ops generalizing d with
  | nil => cases h
  | cons p rest ih =>
    rw [List.nodup_cons] at hnodup
    rcases annotate_cons_cases d line p rest with
      ⟨d', hstep, hsettles, hother⟩ | ⟨text, fault', hstep, hnew, hline, hlist⟩
    · obtain ⟨before, o, after, text, rfl, hnew, hline, hlist, hbefore⟩ :=
        ih hnodup.2 (hstep ▸ h)
      have hkept : ∀ q ∈ before ++ o :: after, d'.bits? q = d.bits? q :=
        fun q hq => hother q fun heq => hnodup.1 (heq ▸ hq)
      refine ⟨p :: before, o, after, text, rfl, ?_, hline, hlist, ?_⟩
      · rw [← hkept o (List.mem_append_right before List.mem_cons_self), hnew]
      · refine List.forall_mem_cons.2 ⟨⟨_, hsettles⟩, fun q hq => ?_⟩
        rw [← hkept q (List.mem_append_left _ hq)]
        exact hbefore q hq
    · rw [hstep] at h
      cases h
      exact ⟨[], p, rest, text, rfl, hnew, hline, hlist, List.forall_mem_nil _⟩

end Comments

end ProblemText

end FactorSearch
