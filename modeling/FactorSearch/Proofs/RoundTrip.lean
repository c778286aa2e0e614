import FactorSearch.Proofs.Annotations
import FactorSearch.Proofs.ClauseLines

/-!
The text of a multiplication is read as the clauses and the layout that it was written
from, and nothing is noticed on the way. The header is passed over, so any other would do.
-/

namespace FactorSearch

open Text

namespace ProblemText

/-- Comments, a header and clauses, each on a line of its own. -/
def printed (comments : List (List Char)) (header : List Char) (clauses : List (List Int)) :
    List Char :=
  (comments ++ header :: clauses.map (fun c => (Dimacs.clauseLine c).toList)).flatMap
    (fun line => line ++ ['\n'])

/-- A header on a single line. -/
structure Heading (header : List Char) : Prop where
  head : header.head? = some 'p'
  unbroken : Unbroken header

theorem toList_text (d : Dimacs) :
    d.text.toList = printed (d.comments.map String.toList) d.header.toList d.clauses := by
  have hlines : d.lines.map String.toList = d.comments.map String.toList ++
      d.header.toList :: d.clauses.map (fun c => (Dimacs.clauseLine c).toList) := by
    unfold Dimacs.lines
    rw [List.map_append, List.map_cons, List.map_map]
    rfl
  unfold Dimacs.text printed
  rw [String.toList_join, List.flatMap_map, ← hlines, List.flatMap_map]
  apply List.flatMap_congr
  intro line _
  rw [String.toList_append]
  rfl

theorem toList_header (d : Dimacs) :
    d.header.toList = 'p' :: (" cnf ".toList ++ d.variableCount.repr.toList ++
      ' ' :: d.clauses.length.repr.toList) := by
  have hprefix : "p cnf ".toList = 'p' :: " cnf ".toList := rfl
  have hblank : " ".toList = [' '] := rfl
  unfold Dimacs.header
  simp only [String.toList_append, hprefix, hblank, Nat.toString_eq_repr, List.append_assoc,
    List.cons_append, List.nil_append]

theorem heading_header (d : Dimacs) : Heading d.header.toList where
  head := by
    rw [toList_header]
    rfl
  unbroken := by
    have hnumber : ∀ n : ℕ, Unbroken n.repr.toList :=
      fun n c hc => isLineBreak_of_numeral (Or.inl (isDigit_of_mem_repr hc))
    have hstart : Unbroken ('p' :: " cnf ".toList) := by decide
    have hblank : Unbroken [' '] := by decide
    rw [toList_header]
    exact unbroken_append (unbroken_append hstart (hnumber _)) (unbroken_append hblank (hnumber _))

theorem readLine_heading {header : List Char} (h : Heading header) (source : Option String)
    (lineNo : ℕ) (d : Draft) : readLine source lineNo (strip header) d = .ok d := by
  cases header with
  | nil => cases h.head
  | cons c rest =>
    cases h.head
    obtain ⟨kept, hkept⟩ := exists_strip_cons rest (by decide : isBlank 'p' = false)
    rw [hkept, readLine]

theorem readLines_cons {source : Option String} {lineNo : ℕ} {line : List Char} {d e : Draft}
    (h : readLine source lineNo (strip line) d = .ok e) (rest : List (List Char)) :
    readLines source lineNo d (line :: rest) = readLines source (lineNo + 1) e rest := by
  rw [readLines, h]

/-- Literals that can be written as a clause and read again. -/
structure Readable (ls : List Literal) : Prop where
  nonempty : ls ≠ []
  writable : ∀ l ∈ ls, Writable l
  distinct : (ls.map Literal.var).Nodup

theorem readLines_clauseLines {lss : List (List Literal)} (h : ∀ ls ∈ lss, Readable ls)
    (source : Option String) (lineNo : ℕ) (d : Draft) :
    readLines source lineNo d
        (lss.map (fun ls => (Dimacs.clauseLine (ls.map Literal.toInt)).toList)) =
      ({ d with clauses := (lss.map Clause.ofLiterals).reverse ++ d.clauses }, none) := by
  induction lss generalizing lineNo d with
  | nil => rfl
  | cons ls rest ih =>
    rw [List.forall_mem_cons] at h
    obtain ⟨⟨hne, hwritable, hdistinct⟩, hrest⟩ := h
    rw [List.map_cons, readLines_cons (readLine_clauseLine hne hwritable hdistinct _ _ _), ih hrest,
      List.map_cons, List.reverse_cons, List.append_assoc]
    rfl

/-- The numbers of a layout have bits, and these are variables that can be written. -/
def ReadableLayout (layout : BitLayout) : Prop :=
  ∀ o, layout.bits o ≠ [] ∧ ∀ x ∈ layout.bits o, 0 < x ∧ x.natAbs < 10 ^ digitLimit

/-- The lines that are read are those that were printed, if no comment is broken. -/
theorem lines_printed {comments : List (List Char)} {header : List Char}
    {lss : List (List Literal)} (hcomments : ∀ line ∈ comments, Unbroken line)
    (hheader : Heading header) (h : ∀ ls ∈ lss, ls ≠ []) :
    lines (printed comments header (lss.map (fun ls => ls.map Literal.toInt))) =
      comments ++ header ::
        lss.map (fun ls => (Dimacs.clauseLine (ls.map Literal.toInt)).toList) := by
  have hclauses : ∀ line ∈ lss.map (fun ls => (Dimacs.clauseLine (ls.map Literal.toInt)).toList),
      Unbroken line := by
    intro line hline
    obtain ⟨ls, hls, rfl⟩ := List.mem_map.1 hline
    exact unbroken_clauseLine (h ls hls)
  unfold printed
  rw [List.map_map]
  apply lines_flatMap
  rw [List.forall_mem_append, List.forall_mem_cons]
  exact ⟨hcomments, hheader.unbroken, hclauses⟩

section Encoding

variable {M : Multiplier} {lss : List (List Literal)} {header : List Char}

theorem toList_comments (product width : ℕ) :
    (Multiplication.encoding product width M).comments.map String.toList =
      [(Multiplication.title product width).toList,
        (Multiplier.annotation .output (M.layout.bits .output)).toList,
        (Multiplier.annotation .first (M.layout.bits .first)).toList,
        (Multiplier.annotation .second (M.layout.bits .second)).toList] := rfl

theorem unbroken_comments (hlayout : ReadableLayout M.layout) (product width : ℕ) :
    ∀ line ∈ (Multiplication.encoding product width M).comments.map String.toList,
      Unbroken line := by
  have hoperand := fun o => unbroken_operand o (fun x hx => ((hlayout o).2 x hx).1)
  rw [toList_comments]
  simp only [List.forall_mem_cons]
  exact ⟨unbroken_title _ _, hoperand .output, hoperand .first, hoperand .second,
    List.forall_mem_nil _⟩

/-- Each line is read without notice: the title, the layout, the header and the clauses. -/
theorem readLines_encoding (hreadable : ∀ ls ∈ lss, Readable ls)
    (hlayout : ReadableLayout M.layout) (hheader : Heading header) (product width : ℕ)
    (source : Option String) :
    readLines source 1 Draft.empty
        ((Multiplication.encoding product width M).comments.map String.toList ++ header ::
          lss.map (fun ls => (Dimacs.clauseLine (ls.map Literal.toInt)).toList)) =
      (⟨(lss.map Clause.ofLiterals).reverse, [(.second, M.layout.bits .second),
        (.first, M.layout.bits .first), (.output, M.layout.bits .output)], []⟩, none) := by
  have hoperand : ∀ o lineNo d, d.bits? o = none →
      readLine source lineNo (strip (Multiplier.annotation o (M.layout.bits o)).toList) d =
        .ok { d with annotations := (o, M.layout.bits o) :: d.annotations } := by
    intro o lineNo d hnew
    obtain ⟨hne, hvars⟩ := hlayout o
    exact readLine_operand o hne (fun x hx => (hvars x hx).1) (fun x hx => (hvars x hx).2)
      source lineNo hnew
  simp only [toList_comments, List.cons_append, List.nil_append]
  rw [readLines_cons (readLine_title _ _ _ _ _),
    readLines_cons (hoperand .output 2 Draft.empty rfl),
    readLines_cons (hoperand .first 3 _ rfl), readLines_cons (hoperand .second 4 _ rfl),
    readLines_cons (readLine_heading hheader _ _ _), readLines_clauseLines hreadable]
  simp only [Draft.empty, List.append_nil]

/-- A circuit that is printed is read as its clauses and its layout, whatever the header. -/
theorem parse_encoding (hclauses : M.circuit.clauses = lss.map (fun ls => ls.map Literal.toInt))
    (hreadable : ∀ ls ∈ lss, Readable ls) (hlayout : ReadableLayout M.layout)
    (hheader : Heading header) (product width : ℕ) (source : Option String) :
    parse source (printed ((Multiplication.encoding product width M).comments.map String.toList)
        header M.circuit.clauses) =
      ⟨[], .ok ⟨lss.map Clause.ofLiterals, M.layout⟩⟩ := by
  have hcomments := unbroken_comments hlayout product width
  unfold parse
  rw [hclauses, lines_printed hcomments hheader (fun ls hls => (hreadable ls hls).nonempty),
    readLines_encoding hreadable hlayout hheader product width source]
  simp only [finish, List.reverse_reverse]
  rfl

end Encoding

end ProblemText

end FactorSearch
