import FactorSearch.Dimacs
import FactorSearch.ProblemText
import FactorSearch.Proofs.Lines
import Mathlib.Data.List.Nodup

/-!
Clauses as lines of text and back. The line of a clause is read as the literals that it
was written from, and as a clause of just these literals if no variable occurs twice.
-/

namespace FactorSearch

open Text

namespace Clause

theorem literals_foldl_insert (c : Clause) {ls : List Literal}
    (h : ((c.literals ++ ls).map Literal.var).Nodup) :
    (ls.foldl insert c).literals = c.literals ++ ls := by
  induction ls generalizing c with
  | nil => exact (List.append_nil _).symm
  | cons l rest ih =>
    have hnew : c.polarity? l.var = none := by
      rw [polarity?_eq_none_iff]
      intro hmem
      rw [List.map_append, List.nodup_append'] at h
      exact h.2.2 hmem List.mem_cons_self
    have hinsert : (c.insert l).literals = c.literals ++ [l] := by
      rw [literals_insert, hnew]
    rw [List.foldl_cons, ih, hinsert, List.append_assoc]
    · rfl
    · rw [hinsert, List.append_assoc]
      exact h

/-- Literals on distinct variables make a clause of just these literals. -/
theorem literals_ofLiterals {ls : List Literal} (h : (ls.map Literal.var).Nodup) :
    (ofLiterals ls).literals = ls := literals_foldl_insert empty h

end Clause

namespace ProblemText

theorem eraseDups_of_nodup {xs : List Int} (h : xs.Nodup) : xs.eraseDups = xs := by
  induction xs with
  | nil => rfl
  | cons x rest ih =>
    rw [List.nodup_cons] at h
    obtain ⟨hx, hrest⟩ := h
    have hfilter : rest.filter (fun y => !y == x) = rest := by
      rw [List.filter_eq_self]
      intro y hy
      have hne : y ≠ x := fun e => hx (e ▸ hy)
      simpa using hne
    rw [List.eraseDups_cons, hfilter, ih hrest]

theorem natAbs_toInt (l : Literal) : (l.toInt.natAbs : Int) = l.var := by
  have hpos := l.var_pos
  unfold Literal.toInt
  split <;> omega

/-- The literal can be written. -/
def Writable (l : Literal) : Prop := l.toInt.natAbs < 10 ^ digitLimit

theorem literalOf_toString {l : Literal} (h : Writable l) :
    literalOf (toString l.toInt).toList = .ok l := by
  unfold literalOf
  rw [parseInteger_toString h]
  simp only [Literal.ofInt_toInt]

/-- The characters of a clause line. -/
def tokens (ls : List Literal) : List (List Char) :=
  ls.map (fun l => (toString l.toInt).toList)

theorem toList_clauseLine {ls : List Literal} (hne : ls ≠ []) :
    (Dimacs.clauseLine (ls.map Literal.toInt)).toList =
      [' '].intercalate (tokens ls ++ [['0']]) := by
  have hline : Dimacs.clauseLine (ls.map Literal.toInt) =
      " ".intercalate ((ls.map Literal.toInt).map toString ++ ["0"]) := by
    rw [String.intercalate_append_of_ne_nil (by simpa using hne) (List.cons_ne_nil _ _),
      String.intercalate_singleton, String.append_assoc]
    rfl
  rw [hline, String.toList_intercalate, List.map_append, List.map_map, List.map_map]
  rfl

theorem numeral_of_mem_tokens {ls : List Literal} {w : List Char} (hw : w ∈ tokens ls) :
    w ≠ [] ∧ ∀ c ∈ w, c.isDigit = true ∨ c = '-' := by
  obtain ⟨l, -, rfl⟩ := List.mem_map.1 hw
  exact ⟨toList_toString_ne_nil _, fun c hc => numeral_of_mem_toString hc⟩

theorem numeral_of_mem_words {ls : List Literal} {w : List Char} (hw : w ∈ tokens ls ++ [['0']]) :
    w ≠ [] ∧ ∀ c ∈ w, c.isDigit = true ∨ c = '-' := by
  rcases List.mem_append.1 hw with hw | hw
  · exact numeral_of_mem_tokens hw
  · rw [List.mem_singleton] at hw
    subst hw
    refine ⟨List.cons_ne_nil _ _, fun c hc => Or.inl ?_⟩
    rw [List.mem_singleton.1 hc]
    rfl

theorem words_clauseLine {ls : List Literal} (hne : ls ≠ []) :
    words (Dimacs.clauseLine (ls.map Literal.toInt)).toList = tokens ls ++ [['0']] := by
  rw [toList_clauseLine hne, words_intercalate (by simp)]
  intro w hw
  obtain ⟨hnonempty, hchars⟩ := numeral_of_mem_words hw
  exact ⟨hnonempty, fun c hc => isBlank_of_numeral (hchars c hc)⟩

theorem literalsOf_clauseLine {ls : List Literal} (hne : ls ≠ []) (h : ∀ l ∈ ls, Writable l) :
    literalsOf (Dimacs.clauseLine (ls.map Literal.toInt)).toList = .ok ls := by
  unfold literalsOf
  rw [words_clauseLine hne]
  simp only [List.getLast?_concat, if_true, List.dropLast_concat]
  exact mapM_map_ok (fun l hl => literalOf_toString (h l hl))

/-- A clause line begins with a numeral. -/
theorem exists_clauseLine_cons {ls : List Literal} (hne : ls ≠ []) :
    ∃ c rest, (c.isDigit = true ∨ c = '-') ∧
      (Dimacs.clauseLine (ls.map Literal.toInt)).toList = c :: rest := by
  obtain ⟨l, ls, rfl⟩ := List.exists_cons_of_ne_nil hne
  obtain ⟨c, cs, hc⟩ := List.exists_cons_of_ne_nil (toList_toString_ne_nil l.toInt)
  refine ⟨c, ?_⟩
  have hnumeral : c.isDigit = true ∨ c = '-' :=
    numeral_of_mem_toString (z := l.toInt) (by rw [hc]; exact List.mem_cons_self)
  rw [toList_clauseLine hne]
  show ∃ rest, _ ∧ [' '].intercalate ((toString l.toInt).toList :: (tokens ls ++ [['0']])) = c :: rest
  rw [hc, List.intercalate_cons_cons_left]
  exact ⟨_, hnumeral, rfl⟩

theorem unbroken_clauseLine {ls : List Literal} (hne : ls ≠ []) :
    Unbroken (Dimacs.clauseLine (ls.map Literal.toInt)).toList := by
  rw [toList_clauseLine hne]
  apply forall_mem_intercalate (by decide : Unbroken [' '])
  intro w hw c hc
  exact isLineBreak_of_numeral ((numeral_of_mem_words hw).2 c hc)

theorem strip_clauseLine {ls : List Literal} (hne : ls ≠ []) :
    strip (Dimacs.clauseLine (ls.map Literal.toInt)).toList =
      (Dimacs.clauseLine (ls.map Literal.toInt)).toList := by
  obtain ⟨c, rest, hc, hline⟩ := exists_clauseLine_cons hne
  apply strip_eq
  · rw [hline]
    intro d hd
    cases hd
    exact isBlank_of_numeral hc
  · have hlast : (Dimacs.clauseLine (ls.map Literal.toInt)).toList.getLast? = some '0' := by
      unfold Dimacs.clauseLine
      rw [String.toList_append]
      exact List.getLast?_append_of_ne_nil _ (List.cons_ne_nil ' ' ['0'])
    rw [hlast]
    intro d hd
    cases hd
    decide

/-- A clause line adds its literals to what has been read. -/
theorem readLine_literals {ls : List Literal} (hne : ls ≠ []) (hwritable : ∀ l ∈ ls, Writable l)
    (source : Option String) (lineNo : ℕ) (d : Draft) :
    readLine source lineNo (strip (Dimacs.clauseLine (ls.map Literal.toInt)).toList) d =
      .ok (addClause d lineNo (Dimacs.clauseLine (ls.map Literal.toInt)).toList ls) := by
  rw [strip_clauseLine hne]
  obtain ⟨c, rest, hc, hline⟩ := exists_clauseLine_cons hne
  have hliterals := literalsOf_clauseLine hne hwritable
  rw [hline] at hliterals ⊢
  unfold readLine
  split
  · rename_i hnil
    exact absurd hnil (List.cons_ne_nil c rest)
  · rename_i hp
    cases hp
    exact absurd hc (by decide)
  · rename_i hcomment
    cases hcomment
    exact absurd hc (by decide)
  · rw [hliterals]

/-- Literals on distinct variables are added as they are. -/
theorem readLine_clauseLine {ls : List Literal} (hne : ls ≠ []) (hwritable : ∀ l ∈ ls, Writable l)
    (hdistinct : (ls.map Literal.var).Nodup) (source : Option String) (lineNo : ℕ) (d : Draft) :
    readLine source lineNo (strip (Dimacs.clauseLine (ls.map Literal.toInt)).toList) d =
      .ok { d with clauses := Clause.ofLiterals ls :: d.clauses } := by
  have hliterals := Clause.literals_ofLiterals hdistinct
  have hsize : ¬ (Clause.ofLiterals ls).size < (ls.map Literal.var).eraseDups.length := by
    unfold Clause.size
    rw [hliterals, eraseDups_of_nodup hdistinct, List.length_map]
    omega
  have hempty : (Clause.ofLiterals ls).isEmpty = false := by
    unfold Clause.isEmpty
    rw [hliterals]
    simpa using hne
  rw [readLine_literals hne hwritable]
  unfold addClause
  simp only [hempty, hsize, if_false, Bool.false_eq_true]

end ProblemText

end FactorSearch
