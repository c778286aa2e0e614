import FactorSearch.Proofs.ReadVariables
import FactorSearch.Proofs.Satisfaction

/-!
What the clauses of a problem that is read say. Every clause line stands for what is
left of its literals, and for nothing if nothing is left. Where no literal of a line meets
its own negation all of them are left, and the valuations of the problem are those that
make a literal of each line true. This fails for a line without literals only: nothing is
left of it from the start, so it is dropped, although no valuation meets it.
-/

namespace FactorSearch

open Text FactorSearch.Valuation

namespace Clause

/-- No literal meets its own negation. -/
def Consistent (ls : List Literal) : Prop := ∀ l ∈ ls, l.negate ∉ ls

instance (ls : List Literal) : Decidable (Consistent ls) := List.decidableBAll _ ls

/-- A literal whose negation is not there joins the others, unless it is one of them. -/
theorem mem_insert {c : Clause} {l m : Literal} (h : m.negate ∉ c.literals) :
    l ∈ (c.insert m).literals ↔ l ∈ c.literals ∨ l = m := by
  rw [literals_insert]
  cases hp : c.polarity? m.var with
  | none => simp only [List.mem_append, List.mem_singleton]
  | some p =>
    obtain ⟨k, hk, hvar, rfl⟩ := mem_of_polarity? hp
    have hkm : m = k := by
      by_contra hne
      exact h ((Literal.negate_eq_of_var_eq hvar.symm hne).symm ▸ hk)
    subst hkm
    simp only [if_true, iff_self_or]
    intro hl
    exact hl ▸ hk

theorem mem_foldl_insert_iff {ls : List Literal} {c : Clause} {l : Literal}
    (h : ∀ m ∈ ls, m.negate ∉ c.literals) (hls : Consistent ls) :
    l ∈ (ls.foldl insert c).literals ↔ l ∈ c.literals ∨ l ∈ ls := by
  induction ls generalizing c with
  | nil => simp
  | cons k rest ih =>
    have hk := h k List.mem_cons_self
    rw [List.foldl_cons, ih, mem_insert hk, List.mem_cons, or_assoc]
    · intro m hm
      rw [mem_insert hk, not_or]
      refine ⟨h m (List.mem_cons_of_mem k hm), ?_⟩
      rintro rfl
      exact hls m (List.mem_cons_of_mem _ hm) List.mem_cons_self
    · exact fun m hm hmem => hls m (List.mem_cons_of_mem k hm) (List.mem_cons_of_mem k hmem)

/-- Literals none of which meets its negation are all kept. -/
theorem mem_ofLiterals_iff {ls : List Literal} {l : Literal} (h : Consistent ls) :
    l ∈ (ofLiterals ls).literals ↔ l ∈ ls := by
  have hfold := mem_foldl_insert_iff (c := empty) (l := l) (fun _ _ => List.not_mem_nil) h
  rw [show (ofLiterals ls).literals = (ls.foldl insert empty).literals from rfl, hfold]
  exact or_iff_right List.not_mem_nil

/-- Every variable of the literals is one of the clause that they leave. -/
def KeepsVars (ls : List Literal) : Prop := ∀ l ∈ ls, l.var ∈ (ofLiterals ls).vars

theorem Consistent.keepsVars {ls : List Literal} (h : Consistent ls) : KeepsVars ls :=
  fun l hl => mem_vars.2 ⟨l, (mem_ofLiterals_iff h).2 hl, rfl⟩

theorem KeepsVars.isEmpty_eq_false {ls : List Literal} (h : KeepsVars ls) (hne : ls ≠ []) :
    (ofLiterals ls).isEmpty = false := by
  obtain ⟨l, hl⟩ := List.exists_mem_of_ne_nil ls hne
  obtain ⟨m, hm, -⟩ := mem_vars.1 (h l hl)
  exact isEmpty_eq_false_iff.2 ⟨m, hm⟩

end Clause

open Clause

theorem Valuation.clause_ofLiterals_iff {v : Valuation} {ls : List Literal} (h : Consistent ls) :
    v.clause (ofLiterals ls) = true ↔ ∃ l ∈ ls, v.literal l = true := by
  unfold Valuation.clause
  simp only [List.any_eq_true, mem_ofLiterals_iff h]

namespace ProblemText

/-- What is left of the literals of a clause line, unless they have all gone. -/
def remainder? (ls : List Literal) : Option Clause :=
  if (ofLiterals ls).isEmpty then none else some (ofLiterals ls)

/-- A line that has literals is left what a written list of them stands for. -/
theorem remainder?_eq_clause? {ls : List Literal} (h : ls ≠ []) :
    remainder? ls = (ClauseSource.written ls).clause? := by
  have hne : ls.isEmpty = false := by simpa using h
  unfold remainder? ClauseSource.clause?
  simp only [hne, Bool.not_false, Bool.true_and]

theorem remainder?_eq_some {ls : List Literal} (hne : ls ≠ []) (h : KeepsVars ls) :
    remainder? ls = some (ofLiterals ls) := by
  rw [remainder?, h.isEmpty_eq_false hne, if_neg Bool.false_ne_true]

/-- The stripped line is neither blank nor a comment nor a header. -/
def isClauseLine : List Char → Bool
  | [] => false
  | c :: _ => c != 'c' && c != 'p'

def IsComment (line : List Char) : Prop := line.head? = some 'c'

/-- The clause lines of a list of lines, without the blanks around them. -/
def clauseLines (ls : List (List Char)) : List (List Char) := (ls.map strip).filter isClauseLine

variable {source : Option String} {d e : Draft}

theorem clauses_addClause (d : Draft) (lineNo : ℕ) (line : List Char) (ls : List Literal) :
    (addClause d lineNo line ls).clauses = (remainder? ls).toList ++ d.clauses := by
  unfold addClause remainder?
  simp only
  split <;> rfl

theorem annotations_addClause (d : Draft) (lineNo : ℕ) (line : List Char) (ls : List Literal) :
    (addClause d lineNo line ls).annotations = d.annotations := by
  unfold addClause
  simp only
  split <;> rfl

theorem readLine_of_isClauseLine (source : Option String) (lineNo : ℕ) (d : Draft)
    {line : List Char} (h : isClauseLine line = true) :
    readLine source lineNo line d =
      match literalsOf line with
      | .ok ls => .ok (addClause d lineNo line ls)
      | .error fault => .error ⟨fault, source, some lineNo, some line⟩ := by
  unfold readLine
  split
  · cases h
  · exact absurd h (by simp [isClauseLine])
  · exact absurd h (by simp [isClauseLine])
  · rfl

theorem readLine_of_isComment (source : Option String) (lineNo : ℕ) (d : Draft)
    {line : List Char} (h : IsComment line) :
    readLine source lineNo line d =
      match annotate d line Operand.all with
      | .ok d => .ok d
      | .error fault => .error ⟨fault, source, none, none⟩ := by
  obtain ⟨rest, rfl⟩ := List.head?_eq_some_iff.1 h
  rfl

theorem readLine_of_other (source : Option String) (lineNo : ℕ) (d : Draft)
    {line : List Char} (hclause : isClauseLine line = false) (hcomment : ¬ IsComment line) :
    readLine source lineNo line d = .ok d := by
  cases line with
  | nil => rfl
  | cons c rest =>
    have hc : c = 'p' := by
      by_contra hp
      have hother : c ≠ 'c' := fun heq => hcomment (congrArg some heq)
      simp [isClauseLine, hp, hother] at hclause
    subst hc
    rfl

/-- A line either gives its clause, or nothing but annotations. -/
theorem readLine_cases {lineNo : ℕ} {line : List Char} (h : readLine source lineNo line d = .ok e) :
    (isClauseLine line = false ∧ e = { d with annotations := e.annotations }) ∨
    (isClauseLine line = true ∧
      ∃ ls, literalsOf line = .ok ls ∧ e = addClause d lineNo line ls) := by
  by_cases hclause : isClauseLine line = true
  · rw [readLine_of_isClauseLine source lineNo d hclause] at h
    split at h
    · rename_i ls hls
      cases h
      exact Or.inr ⟨hclause, ls, hls, rfl⟩
    · cases h
  · rw [Bool.not_eq_true] at hclause
    by_cases hcomment : IsComment line
    · rw [readLine_of_isComment source lineNo d hcomment] at h
      split at h
      · rename_i e' hannotate
        cases h
        exact Or.inl ⟨hclause, annotate_eq hannotate⟩
      · cases h
    · rw [readLine_of_other source lineNo d hclause hcomment] at h
      cases h
      exact Or.inl ⟨hclause, rfl⟩

theorem mapM_cons_ok {α β ε : Type} {f : α → Except ε β} {x : α} {xs : List α} {y : β}
    {ys : List β} (hx : f x = .ok y) (hxs : xs.mapM f = .ok ys) :
    (x :: xs).mapM f = .ok (y :: ys) := by
  rw [List.mapM_cons, hx, hxs]
  rfl

/-- The clauses that are read are what is left of the clause lines, the latest first. -/
theorem clauses_readLines {lineNo : ℕ} {lines : List (List Char)}
    (h : readLines source lineNo d lines = (e, none)) :
    ∃ lss, (clauseLines lines).mapM literalsOf = .ok lss ∧
      e.clauses = (lss.filterMap remainder?).reverse ++ d.clauses := by
  induction lines generalizing lineNo d with
  | nil =>
    cases h
    exact ⟨[], rfl, rfl⟩
  | cons line rest ih =>
    unfold readLines at h
    split at h
    · rename_i d' hline
      obtain ⟨lss, hlss, hclauses⟩ := ih h
      rcases readLine_cases hline with ⟨hother, hsame⟩ | ⟨hclause, ls, hls, rfl⟩
      · rw [hsame] at hclauses
        refine ⟨lss, ?_, hclauses⟩
        rw [clauseLines, List.map_cons, List.filter_cons_of_neg (by rw [hother]; decide)]
        exact hlss
      · refine ⟨ls :: lss, ?_, ?_⟩
        · rw [clauseLines, List.map_cons, List.filter_cons_of_pos hclause]
          exact mapM_cons_ok hls hlss
        · rw [hclauses, clauses_addClause, List.filterMap_cons]
          cases remainder? ls with
          | none => rfl
          | some c => simp
    · cases h

theorem clauses_parse {text : List Char} {p : Problem} (h : (parse source text).result = .ok p) :
    ∃ lss, (clauseLines (lines text)).mapM literalsOf = .ok lss ∧
      p.clauses = lss.filterMap remainder? := by
  unfold parse at h
  simp only at h
  split at h
  · cases h
  · rename_i hnone
    obtain ⟨lss, hlss, hclauses⟩ := clauses_readLines (Prod.ext rfl hnone)
    refine ⟨lss, hlss, ?_⟩
    rw [clauses_finish h, hclauses, Draft.empty, List.append_nil, List.reverse_reverse]

theorem satisfies_remainders {v : Valuation} {lss : List (List Literal)}
    (h : ∀ ls ∈ lss, Consistent ls) :
    v.Satisfies (lss.filterMap remainder?) ↔
      ∀ ls ∈ lss, ls ≠ [] → ∃ l ∈ ls, v.literal l = true := by
  constructor
  · intro hv ls hls hne
    rw [← clause_ofLiterals_iff (h ls hls)]
    exact hv _ (List.mem_filterMap.2 ⟨ls, hls, remainder?_eq_some hne (h ls hls).keepsVars⟩)
  · intro hv c hc
    obtain ⟨ls, hls, hrest⟩ := List.mem_filterMap.1 hc
    have hne : ls ≠ [] := by
      rintro rfl
      cases hrest
    rw [remainder?_eq_some hne (h ls hls).keepsVars, Option.some.injEq] at hrest
    subst hrest
    exact (clause_ofLiterals_iff (h ls hls)).2 (hv ls hls hne)

end ProblemText

namespace Factorisation

open ProblemText

variable {source : Option String} {text : List Char} {f : Factorisation}

/-- The root holds what is left of the clause lines. -/
theorem clauses_ofText (h : (ofText source text).2 = .ok f) :
    ∃ lss, (clauseLines (lines text)).mapM literalsOf = .ok lss ∧
      f.root.clauses = Clause.distinct (lss.filterMap remainder?) := by
  unfold ofText at h
  simp only at h
  split at h
  · rename_i p hp
    cases h
    obtain ⟨lss, hlss, hclauses⟩ := clauses_parse hp
    refine ⟨lss, hlss, ?_⟩
    rw [← hclauses]
    rfl
  · cases h

/-- A problem whose lines are consistent has the valuations that make a literal of each
line true, except that a line without literals asks for nothing. -/
theorem satisfies_iff_clauseLines (h : (ofText source text).2 = .ok f) :
    ∃ lss, (clauseLines (lines text)).mapM literalsOf = .ok lss ∧
      ((∀ ls ∈ lss, Consistent ls) → ∀ v : Valuation, v.Satisfies f.root.clauses ↔
        ∀ ls ∈ lss, ls ≠ [] → ∃ l ∈ ls, v.literal l = true) := by
  obtain ⟨lss, hlss, hclauses⟩ := clauses_ofText h
  refine ⟨lss, hlss, fun hconsistent v => ?_⟩
  rw [hclauses, satisfies_distinct, satisfies_remainders hconsistent]

/-- Three variables, two clauses, and a line without literals. -/
def contradictory : String :=
  "c v output:[3]\nc v first input:[1]\nc v second input:[2]\n1 -3 0\n2 -3 0\n0\n"

/-- The literals on the lines of the problem. -/
def contradictoryLines : List (List Literal) :=
  [[1, -3], [2, -3], []].map fun line => line.filterMap fun n => (Literal.ofInt n).toOption

theorem mapM_contradictory :
    (clauseLines (lines contradictory.toList)).mapM literalsOf = .ok contradictoryLines := rfl

theorem consistent_contradictory : ∀ ls ∈ contradictoryLines, Consistent ls := by decide

theorem exists_ofText_contradictory : ∃ f, (ofText none contradictory.toList).2 = .ok f :=
  ⟨_, rfl⟩

theorem satisfies_contradictory_iff :
    ∃ f, (ofText none contradictory.toList).2 = .ok f ∧
      (∀ ls ∈ contradictoryLines, Consistent ls) ∧
      ∀ v : Valuation, v.Satisfies f.root.clauses ↔
        ∀ ls ∈ contradictoryLines, ls ≠ [] → ∃ l ∈ ls, v.literal l = true := by
  obtain ⟨f, hf⟩ := exists_ofText_contradictory
  obtain ⟨lss, hlss, hiff⟩ := satisfies_iff_clauseLines hf
  cases mapM_contradictory.symm.trans hlss
  exact ⟨f, hf, consistent_contradictory, hiff consistent_contradictory⟩

/-- The line without literals is lost: the problem has a satisfying valuation, though none
makes a literal of each line true, and the same lists of literals make a contradiction. -/
theorem contradictory_satisfied :
    ∃ f, (ofText none contradictory.toList).2 = .ok f ∧
      (clauseLines (lines contradictory.toList)).mapM literalsOf = .ok contradictoryLines ∧
      (∀ ls ∈ contradictoryLines, Consistent ls) ∧
      (¬ ∀ v : Valuation, v.Satisfies f.root.clauses ↔
        ∀ ls ∈ contradictoryLines, ∃ l ∈ ls, v.literal l = true) ∧
      (Node.ofSources (contradictoryLines.map .written)).contradiction = true := by
  obtain ⟨f, hf⟩ := exists_ofText_contradictory
  refine ⟨f, hf, mapM_contradictory, consistent_contradictory, ?_, rfl⟩
  intro hiff
  obtain ⟨lss, hlss, hclauses⟩ := clauses_ofText hf
  cases mapM_contradictory.symm.trans hlss
  have hsatisfied : Valuation.Satisfies (fun _ => true) f.root.clauses := by
    rw [hclauses, satisfies_distinct, satisfies_remainders consistent_contradictory]
    decide
  obtain ⟨l, hl, -⟩ := (hiff _).1 hsatisfied [] (by decide)
  exact absurd hl List.not_mem_nil

end Factorisation

end FactorSearch
