import FactorSearch.Proofs.ReadClauses
import Mathlib.Data.List.Induction

/-!
What is noticed in the clause lines of a problem that is read. A clause keeps at most the last
literal on each variable of its line, and a line is noticed exactly if some variable is not
kept, or if it has no literals to begin with. So all variables of a line that goes unnoticed
are kept. This is less than that no literal has met its negation: a variable that has
cancelled may be written once more. Its clause then has the last literal only, although every
valuation makes a literal of the line true.
-/

namespace FactorSearch

open Text FactorSearch.Valuation

namespace Clause

variable {ls : List Literal} {l : Literal}

/-- The last literal on a variable. -/
def lastOn? (ls : List Literal) (x : Int) : Option Literal := ls.reverse.find? fun l => l.var == x

theorem mem_of_lastOn? {x : Int} (h : lastOn? ls x = some l) : l ∈ ls :=
  List.mem_reverse.1 (List.mem_of_find?_eq_some h)

theorem lastOn?_of_mem (h : l ∈ (ofLiterals ls).literals) : lastOn? ls l.var = some l := by
  induction ls using List.reverseRecOn with
  | nil => exact absurd h List.not_mem_nil
  | append_singleton ls m ih =>
    rw [ofLiterals, List.foldl_concat] at h
    rw [lastOn?, List.reverse_concat, List.find?_cons]
    rcases eq_or_of_mem_insert h with rfl | ⟨hne, hl⟩
    · rw [beq_self_eq_true]
    · rw [beq_eq_false_iff_ne.2 hne.symm]
      exact ih hl

/-- If no variable has gone, then the last literals on the variables are what is left. -/
theorem KeepsVars.mem_iff (h : KeepsVars ls) :
    l ∈ (ofLiterals ls).literals ↔ lastOn? ls l.var = some l := by
  refine ⟨lastOn?_of_mem, fun hlast => ?_⟩
  obtain ⟨m, hm, hvar⟩ := mem_vars.1 (h l (mem_of_lastOn? hlast))
  have hmlast := lastOn?_of_mem hm
  rw [hvar, hlast, Option.some.injEq] at hmlast
  exact hmlast ▸ hm

theorem vars_ofLiterals_subset : (ofLiterals ls).vars ⊆ ls.map Literal.var :=
  List.map_subset _ fun _ hl => mem_ofLiterals hl

theorem length_lt_iff_of_nodup {α : Type} {xs ys : List α} (hxs : xs.Nodup) (hys : ys.Nodup)
    (h : xs ⊆ ys) : xs.length < ys.length ↔ ∃ y ∈ ys, y ∉ xs := by
  constructor
  · intro hlt
    by_contra hall
    have hsubset : ys ⊆ xs := fun y hy => not_not.1 fun hnot => hall ⟨y, hy, hnot⟩
    have hle := (List.subperm_of_subset hys hsubset).length_le
    omega
  · intro hy
    obtain ⟨y, hy, hnot⟩ := hy
    have hsubset : y :: xs ⊆ ys := List.cons_subset.2 ⟨hy, h⟩
    exact (List.subperm_of_subset (List.nodup_cons.2 ⟨hnot, hxs⟩) hsubset).length_le

/-- There are fewer literals left than there were variables exactly if a variable has gone. -/
theorem size_ofLiterals_lt_iff :
    (ofLiterals ls).size < (ls.map Literal.var).eraseDups.length ↔ ¬ KeepsVars ls := by
  have hsubset : (ofLiterals ls).vars ⊆ (ls.map Literal.var).eraseDups :=
    fun _ hx => List.mem_eraseDups.2 (vars_ofLiterals_subset hx)
  have hlt := length_lt_iff_of_nodup (ofLiterals ls).nodup_vars (Restriction.nodup_eraseDups _) hsubset
  rw [List.length_map] at hlt
  rw [size, hlt, KeepsVars, vars]
  simp only [List.mem_eraseDups, List.mem_map (l := ls), exists_exists_and_eq_and, not_forall,
    exists_prop]

end Clause

open Clause

namespace Valuation

/-- Of a literal and its negation one is true. -/
theorem exists_literal_of_negate_mem {v : Valuation} {ls : List Literal} {l : Literal}
    (hl : l ∈ ls) (hnegate : l.negate ∈ ls) : ∃ m ∈ ls, v.literal m = true := by
  cases hv : v.literal l with
  | true => exact ⟨l, hl, hv⟩
  | false =>
    refine ⟨l.negate, hnegate, ?_⟩
    rw [literal_negate, hv]
    rfl

theorem clause_refuting (c : Clause) : (refuting c).clause c = false := by
  rw [Valuation.clause, List.any_eq_false]
  intro l hl
  rw [literal_refuting hl]
  exact Bool.false_ne_true

/-- Every clause can be refuted, and literals that meet their negation cannot. -/
theorem not_clause_iff_of_negate_mem (c : Clause) {ls : List Literal} {l : Literal} (hl : l ∈ ls)
    (hnegate : l.negate ∈ ls) :
    ¬ ∀ v : Valuation, v.clause c = true ↔ ∃ m ∈ ls, v.literal m = true := by
  intro hiff
  have hclause := (hiff (refuting c)).2 (exists_literal_of_negate_mem hl hnegate)
  rw [clause_refuting] at hclause
  exact Bool.false_ne_true hclause

/-- What is left of literals says the same as their disjunction exactly if none of them has
met its negation. -/
theorem clause_ofLiterals_iff_consistent {ls : List Literal} :
    (∀ v : Valuation, v.clause (ofLiterals ls) = true ↔ ∃ l ∈ ls, v.literal l = true) ↔
      Consistent ls := by
  constructor
  · intro hiff l hl hnegate
    exact not_clause_iff_of_negate_mem _ hl hnegate hiff
  · exact fun h v => clause_ofLiterals_iff h

end Valuation

/-- The number of the line that was noticed. -/
def Notice.lineNo : Notice → ℕ
  | .dropped n _ => n
  | .cancelled n _ => n

namespace ProblemText

/-- What is noticed in the literals of a clause line. -/
def notice? (lineNo : ℕ) (line : List Char) (ls : List Literal) : Option Notice :=
  if (ofLiterals ls).isEmpty then some (.dropped lineNo line)
  else if (ofLiterals ls).size < (ls.map Literal.var).eraseDups.length then
    some (.cancelled lineNo line)
  else none

/-- The clause lines, without the blanks around them, and their numbers from a first one on. -/
def numberedLines (lineNo : ℕ) (ls : List (List Char)) : List (List Char × ℕ) :=
  ((ls.map strip).zipIdx lineNo).filter fun e => isClauseLine e.1

/-- What is noticed in a numbered clause line. -/
def noticeAt? (e : List Char × ℕ) : Option Notice :=
  match literalsOf e.1 with
  | .ok ls => notice? e.2 e.1 ls
  | .error _ => none

/-- Something was noticed in the line with the number. -/
def Reading.Notices (r : Reading) (lineNo : ℕ) : Prop := ∃ n ∈ r.notices, n.lineNo = lineNo

variable {source : Option String} {d e : Draft} {lineNo : ℕ} {line : List Char}
  {ls : List Literal} {text : List Char} {p : Problem}

theorem notices_addClause (d : Draft) (lineNo : ℕ) (line : List Char) (ls : List Literal) :
    (addClause d lineNo line ls).notices = (notice? lineNo line ls).toList ++ d.notices := by
  unfold addClause notice?
  simp only
  split
  · rfl
  · split <;> rfl

theorem lineNo_of_notice? {n : Notice} (h : notice? lineNo line ls = some n) :
    n.lineNo = lineNo := by
  unfold notice? at h
  split at h
  · cases h
    rfl
  · split at h
    · cases h
      rfl
    · cases h

/-- A clause line goes unnoticed exactly if it has literals and keeps all their variables. -/
theorem notice?_eq_none_iff : notice? lineNo line ls = none ↔ ls ≠ [] ∧ KeepsVars ls := by
  unfold notice?
  cases hempty : (ofLiterals ls).isEmpty with
  | true =>
    simp only [if_true, reduceCtorEq, false_iff, not_and]
    intro hne hkeeps
    rw [hkeeps.isEmpty_eq_false hne] at hempty
    cases hempty
  | false =>
    have hne : ls ≠ [] := by
      rintro rfl
      cases hempty
    simp only [Bool.false_eq_true, if_false, size_ofLiterals_lt_iff, ite_eq_right_iff,
      reduceCtorEq, imp_false, not_not, hne, ne_eq, not_false_eq_true, true_and]

theorem numberedLines_cons (lineNo : ℕ) (line : List Char) (rest : List (List Char)) :
    numberedLines lineNo (line :: rest) =
      if isClauseLine (strip line) then (strip line, lineNo) :: numberedLines (lineNo + 1) rest
      else numberedLines (lineNo + 1) rest := by
  unfold numberedLines
  rw [List.map_cons, List.zipIdx_cons, List.filter_cons]

/-- The notices are those of the clause lines, the latest first. -/
theorem notices_readLines {lines : List (List Char)}
    (h : readLines source lineNo d lines = (e, none)) :
    e.notices = ((numberedLines lineNo lines).filterMap noticeAt?).reverse ++ d.notices := by
  induction lines generalizing lineNo d with
  | nil =>
    cases h
    rfl
  | cons line rest ih =>
    unfold readLines at h
    split at h
    · rename_i d' hline
      rw [ih h, numberedLines_cons]
      rcases readLine_cases hline with ⟨hother, hsame⟩ | ⟨hclause, ls, hls, rfl⟩
      · rw [hsame, hother, if_neg Bool.false_ne_true]
      · have hat : noticeAt? (strip line, lineNo) = notice? lineNo (strip line) ls := by
          rw [noticeAt?, hls]
        rw [notices_addClause, if_pos hclause, List.filterMap_cons, hat]
        cases notice? lineNo (strip line) ls with
        | none => rfl
        | some n => simp
    · cases h

theorem notices_parse (h : (parse source text).result = .ok p) :
    (parse source text).notices = (numberedLines 1 (lines text)).filterMap noticeAt? := by
  unfold parse at h ⊢
  simp only at h ⊢
  split at h
  · cases h
  · rename_i hnone
    rw [notices_readLines (Prod.ext rfl hnone), Draft.empty, List.append_nil, List.reverse_reverse]

/-- No two lines have the same number. -/
theorem eq_of_mem_numberedLines {lines : List (List Char)} {line' : List Char} {k : ℕ}
    (h : (line, k) ∈ numberedLines lineNo lines) (h' : (line', k) ∈ numberedLines lineNo lines) :
    line = line' := by
  have hget := (List.mem_zipIdx_iff_le_and_getElem?_sub.1 (List.mem_filter.1 h).1).2
  have hget' := (List.mem_zipIdx_iff_le_and_getElem?_sub.1 (List.mem_filter.1 h').1).2
  exact Option.some.inj (hget.symm.trans hget')

theorem notices_iff (h : (parse source text).result = .ok p)
    (hline : (line, lineNo) ∈ numberedLines 1 (lines text)) (hls : literalsOf line = .ok ls) :
    (parse source text).Notices lineNo ↔ notice? lineNo line ls ≠ none := by
  have hat : noticeAt? (line, lineNo) = notice? lineNo line ls := by
    rw [noticeAt?, hls]
  unfold Reading.Notices
  rw [notices_parse h]
  constructor
  · intro hnoticed
    obtain ⟨n, hn, rfl⟩ := hnoticed
    obtain ⟨⟨line', k⟩, hline', hn⟩ := List.mem_filterMap.1 hn
    have hk : n.lineNo = k := by
      unfold noticeAt? at hn
      split at hn
      · exact lineNo_of_notice? hn
      · cases hn
    subst hk
    cases eq_of_mem_numberedLines hline hline'
    rw [← hat, hn]
    exact Option.some_ne_none n
  · intro hne
    obtain ⟨n, hn⟩ := Option.ne_none_iff_exists'.1 hne
    exact ⟨n, List.mem_filterMap.2 ⟨_, hline, hat.trans hn⟩, lineNo_of_notice? hn⟩

/-- Every clause line that is read has literals. -/
theorem exists_literalsOf (h : (parse source text).result = .ok p)
    (hline : (line, lineNo) ∈ numberedLines 1 (lines text)) :
    ∃ ls, literalsOf line = .ok ls ∧ ∀ c, remainder? ls = some c → c ∈ p.clauses := by
  obtain ⟨lss, hlss, hclauses⟩ := clauses_parse h
  obtain ⟨hmem, hclause⟩ := List.mem_filter.1 hline
  have hmem : line ∈ clauseLines (lines text) :=
    List.mem_filter.2 ⟨List.fst_mem_of_mem_zipIdx hmem, hclause⟩
  obtain ⟨ls, hls, hread⟩ := exists_ok_of_mapM hlss hmem
  refine ⟨ls, hread, fun c hc => ?_⟩
  rw [hclauses]
  exact List.mem_filterMap.2 ⟨ls, hls, hc⟩

/-- In a problem that is read, a clause line is noticed exactly if it has no literals or loses
a variable. A line that goes unnoticed gives the clause of the last literals on its variables,
which says what the line says exactly if no literal of the line meets its negation. -/
theorem unnoticed_equivalent_iff (h : (parse source text).result = .ok p)
    (hline : (line, lineNo) ∈ numberedLines 1 (lines text)) :
    ∃ ls, literalsOf line = .ok ls ∧
      ((parse source text).Notices lineNo ↔
        ls = [] ∨ ∃ l ∈ ls, l.var ∉ (ofLiterals ls).vars) ∧
      (¬ (parse source text).Notices lineNo →
        ofLiterals ls ∈ p.clauses ∧
        (∀ l, l ∈ (ofLiterals ls).literals ↔ lastOn? ls l.var = some l) ∧
        ((∀ v : Valuation, v.clause (ofLiterals ls) = true ↔ ∃ l ∈ ls, v.literal l = true) ↔
          Consistent ls)) := by
  obtain ⟨ls, hls, hstored⟩ := exists_literalsOf h hline
  have hnotices := notices_iff h hline hls
  rw [ne_eq, notice?_eq_none_iff] at hnotices
  refine ⟨ls, hls, ?_, fun hquiet => ?_⟩
  · rw [hnotices, not_and_or, not_not, KeepsVars]
    simp only [not_forall, exists_prop]
  · rw [hnotices, not_not] at hquiet
    obtain ⟨hne, hkeeps⟩ := hquiet
    exact ⟨hstored _ (remainder?_eq_some hne hkeeps), fun l => hkeeps.mem_iff,
      clause_ofLiterals_iff_consistent⟩

/-- A variable is lost on the first of three clause lines, meets its negation and is written
again on the second, and only repeated on the third. -/
def cancelling : String :=
  "c v output:[3]\nc v first input:[1]\nc v second input:[2]\n1 -1 2 0\n1 -1 1 0\n-3 2 -3 0\n"

def oppositeLiterals : List Literal :=
  [1, -1, 1].filterMap fun n => (Literal.ofInt n).toOption

def repeatedLiterals : List Literal :=
  [-3, 2, -3].filterMap fun n => (Literal.ofInt n).toOption

theorem exists_parse_cancelling : ∃ p, (parse none cancelling.toList).result = .ok p :=
  ⟨_, rfl⟩

theorem notices_cancelling :
    (parse none cancelling.toList).notices = [.cancelled 4 "1 -1 2 0".toList] := by
  rfl

theorem unnoticed_equivalent_repeated :
    ∃ p, (parse none cancelling.toList).result = .ok p ∧
      ("-3 2 -3 0".toList, 6) ∈ numberedLines 1 (lines cancelling.toList) ∧
      literalsOf "-3 2 -3 0".toList = .ok repeatedLiterals ∧
      ¬ (parse none cancelling.toList).Notices 6 ∧ ofLiterals repeatedLiterals ∈ p.clauses ∧
      ∀ v : Valuation,
        v.clause (ofLiterals repeatedLiterals) = true ↔
          ∃ l ∈ repeatedLiterals, v.literal l = true := by
  obtain ⟨p, hp⟩ := exists_parse_cancelling
  have hline : ("-3 2 -3 0".toList, 6) ∈ numberedLines 1 (lines cancelling.toList) := by decide
  have hread : literalsOf "-3 2 -3 0".toList = .ok repeatedLiterals := rfl
  have hquiet : ¬ (parse none cancelling.toList).Notices 6 := by
    unfold Reading.Notices
    rw [notices_cancelling]
    decide
  obtain ⟨ls, hls, -, hstored⟩ := unnoticed_equivalent_iff hp hline
  cases hread.symm.trans hls
  obtain ⟨hmem, -, hiff⟩ := hstored hquiet
  have hconsistent : Consistent repeatedLiterals := by decide
  exact ⟨p, hp, hline, hread, hquiet, hmem, hiff.2 hconsistent⟩

/-- The second clause line goes unnoticed, and no clause that is read says what it says. -/
theorem cancelling_unnoticed :
    ∃ p, (parse none cancelling.toList).result = .ok p ∧
      ("1 -1 1 0".toList, 5) ∈ numberedLines 1 (lines cancelling.toList) ∧
      literalsOf "1 -1 1 0".toList = .ok oppositeLiterals ∧
      ¬ (parse none cancelling.toList).Notices 5 ∧
      ¬ ∃ c ∈ p.clauses, ∀ v : Valuation,
        v.clause c = true ↔ ∃ l ∈ oppositeLiterals, v.literal l = true := by
  obtain ⟨p, hp⟩ := exists_parse_cancelling
  have hquiet : ¬ (parse none cancelling.toList).Notices 5 := by
    unfold Reading.Notices
    rw [notices_cancelling]
    decide
  refine ⟨p, hp, by decide, rfl, hquiet, ?_⟩
  intro hall
  obtain ⟨c, -, hiff⟩ := hall
  exact not_clause_iff_of_negate_mem c (l := ⟨1, true, Int.one_pos⟩) (by decide) (by decide) hiff

end ProblemText

end FactorSearch
