import FactorSearch.Proofs.Factoring
import FactorSearch.Proofs.ReadClauses

/-!
Problems as they are printed: comments, a header, one line for each clause. Whatever the
order of the comments, and whatever else they say, the problem that is read has the bits
that were annotated, and its root is built from the clauses as they were given. Reading
drops a clause that cancels just as building a root from the written list does.
-/

namespace FactorSearch

open Text

namespace ProblemText

def annotationLine (layout : BitLayout) (o : Operand) : List Char :=
  (Multiplier.annotation o (layout.bits o)).toList

/-- A comment on a single line that annotates no operand. -/
structure Remark (line : List Char) : Prop where
  head : line.head? = some 'c'
  unbroken : Unbroken line
  silent : ∀ o, annotation? o (strip line) = none

/-- Comments that annotate each operand with its bits, in any order and among remarks. -/
structure Annotates (comments : List (List Char)) (layout : BitLayout) : Prop where
  annotated : ∀ o, annotationLine layout o ∈ comments
  others : ∀ line ∈ comments, (∃ o, line = annotationLine layout o) ∨ Remark line

/-- A clause that has literals, all of which can be written. -/
structure Writing (clause : List Int) : Prop where
  nonempty : clause ≠ []
  nonzero : ∀ z ∈ clause, z ≠ 0
  writable : ∀ z ∈ clause, z.natAbs < 10 ^ digitLimit

section Comments

variable {source : Option String} {layout : BitLayout} {d e : Draft}

/-- The operands annotated so far have the bits of the layout. -/
def Draft.Follows (d : Draft) (layout : BitLayout) : Prop :=
  ∀ o, ∀ bits ∈ d.bits? o, bits = layout.bits o

theorem readLine_remark {line : List Char} (h : Remark line) (lineNo : ℕ) (d : Draft) :
    readLine source lineNo (strip line) d = .ok d := by
  obtain ⟨rest, hline⟩ : ∃ rest, line = 'c' :: rest := by
    cases line with
    | nil => cases h.head
    | cons c rest =>
      cases h.head
      exact ⟨rest, rfl⟩
  have hsilent : annotate d (strip line) Operand.all = .ok d :=
    annotate_of_none fun o _ => h.silent o
  subst hline
  obtain ⟨kept, hkept⟩ := exists_strip_cons rest (by decide : isBlank 'c' = false)
  rw [hkept] at hsilent ⊢
  rw [readLine, hsilent]

/-- An annotation settles its operand, whether or not it was settled before. -/
theorem exists_readLine_annotationLine (source : Option String) (hlayout : ReadableLayout layout)
    (hd : d.Follows layout) (o : Operand) (lineNo : ℕ) :
    ∃ e, readLine source lineNo (strip (annotationLine layout o)) d = .ok e ∧
      e.clauses = d.clauses ∧ e.Follows layout ∧ e.bits? o = some (layout.bits o) ∧
      ∀ p, (d.bits? p).isSome → (e.bits? p).isSome := by
  obtain ⟨hne, hvars⟩ := hlayout o
  have hpos := fun x hx => (hvars x hx).1
  cases hknown : d.bits? o with
  | some bits =>
    have hbits := hd o bits hknown
    refine ⟨d, readLine_annotation source lineNo (annotate_of_settled ?_), rfl, hd, ?_, fun _ => id⟩
    · intro p _
      rw [annotation?_operand p o hne hpos]
      by_cases hp : p = o
      · subst hp
        exact Or.inl (hknown ▸ rfl)
      · exact Or.inr (if_neg hp)
    · rw [hknown, hbits]
  | none =>
    have hread := readLine_operand o hne hpos (fun x hx => (hvars x hx).2) source lineNo hknown
    refine ⟨_, hread, rfl, ?_, ?_, ?_⟩
    · intro p bits hmem
      rw [bits?_annotations_cons] at hmem
      split at hmem
      · rename_i hp
        subst hp
        exact (Option.mem_some.1 hmem).symm
      · exact hd p bits hmem
    · rw [bits?_annotations_cons, if_pos rfl]
    · intro p hp
      rw [bits?_annotations_cons]
      split
      · rfl
      · exact hp

/-- A line annotates one operand only. -/
theorem annotationLine_injective (hlayout : ReadableLayout layout) {o p : Operand}
    (h : annotationLine layout o = annotationLine layout p) : o = p := by
  have hread := fun q r => annotation?_operand q r (hlayout r).1 (fun x hx => ((hlayout r).2 x hx).1)
  have hsame : annotation? o (annotationLine layout o) = annotation? o (annotationLine layout p) :=
    congrArg (annotation? o) h
  unfold annotationLine at hsame
  rw [hread o o, if_pos rfl, hread o p] at hsame
  by_contra hne
  rw [if_neg hne] at hsame
  cases hsame

/-- Comments leave the clauses alone and settle the operands that they annotate. -/
theorem exists_readLines_comments (source : Option String) {comments : List (List Char)}
    (hlayout : ReadableLayout layout)
    (hcomments : ∀ line ∈ comments, (∃ o, line = annotationLine layout o) ∨ Remark line)
    (hd : d.Follows layout) (lineNo : ℕ) :
    ∃ e, readLines source lineNo d comments = (e, none) ∧ e.clauses = d.clauses ∧
      e.Follows layout ∧
      ∀ o, (d.bits? o).isSome ∨ annotationLine layout o ∈ comments → (e.bits? o).isSome := by
  induction comments generalizing d lineNo with
  | nil =>
    refine ⟨d, rfl, rfl, hd, fun o ho => ?_⟩
    exact ho.resolve_right List.not_mem_nil
  | cons line rest ih =>
    rw [List.forall_mem_cons] at hcomments
    obtain ⟨hline, hrest⟩ := hcomments
    have hstep : ∃ d', readLine source lineNo (strip line) d = .ok d' ∧ d'.clauses = d.clauses ∧
        d'.Follows layout ∧
        ∀ o, (d.bits? o).isSome ∨ line = annotationLine layout o → (d'.bits? o).isSome := by
      by_cases hannotates : ∃ o, line = annotationLine layout o
      · obtain ⟨o, rfl⟩ := hannotates
        obtain ⟨d', hread, hclauses, hfollows, hbits, hkept⟩ :=
          exists_readLine_annotationLine source hlayout hd o lineNo
        refine ⟨d', hread, hclauses, hfollows, ?_⟩
        rintro p (hp | hp)
        · exact hkept p hp
        · rw [← annotationLine_injective hlayout hp, hbits]
          rfl
      · have hremark := hline.resolve_left hannotates
        exact ⟨d, readLine_remark hremark lineNo d, rfl, hd, fun o ho =>
          ho.resolve_right (fun h => hannotates ⟨o, h⟩)⟩
    obtain ⟨d', hread, hclauses, hfollows, hknown⟩ := hstep
    obtain ⟨e, hreads, heclauses, hefollows, heknown⟩ := ih hrest hfollows (lineNo + 1)
    refine ⟨e, ?_, heclauses.trans hclauses, hefollows, ?_⟩
    · rw [readLines_cons hread, hreads]
    · rintro o (ho | ho)
      · exact heknown o (Or.inl (hknown o (Or.inl ho)))
      · rcases List.mem_cons.1 ho with ho | ho
        · exact heknown o (Or.inl (hknown o (Or.inr ho.symm)))
        · exact heknown o (Or.inr ho)

end Comments

section Clauses

variable {source : Option String} {d : Draft}

theorem readLines_append {d e : Draft} {lineNo : ℕ} {xs : List (List Char)}
    (h : readLines source lineNo d xs = (e, none)) (ys : List (List Char)) :
    readLines source lineNo d (xs ++ ys) = readLines source (lineNo + xs.length) e ys := by
  induction xs generalizing d lineNo with
  | nil =>
    cases h
    rfl
  | cons x rest ih =>
    rw [readLines] at h
    split at h
    · rename_i d' hx
      rw [List.cons_append, readLines_cons hx, ih h, List.length_cons, Nat.add_right_comm,
        Nat.add_assoc]
    · cases h

/-- Clause lines are read as what is left of their literals. -/
theorem exists_readLines_literals (source : Option String) {lss : List (List Literal)}
    (h : ∀ ls ∈ lss, ls ≠ [] ∧ ∀ l ∈ ls, Writable l) (lineNo : ℕ) (d : Draft) :
    ∃ e, readLines source lineNo d
        (lss.map (fun ls => (Dimacs.clauseLine (ls.map Literal.toInt)).toList)) = (e, none) ∧
      e.annotations = d.annotations ∧
      e.clauses = (lss.filterMap remainder?).reverse ++ d.clauses := by
  induction lss generalizing lineNo d with
  | nil => exact ⟨d, rfl, rfl, rfl⟩
  | cons ls rest ih =>
    rw [List.forall_mem_cons] at h
    obtain ⟨⟨hne, hwritable⟩, hrest⟩ := h
    have hread := readLine_literals hne hwritable source lineNo d
    obtain ⟨e, hreads, hannotations, hclauses⟩ := ih hrest (lineNo + 1) _
    refine ⟨e, (readLines_cons hread _).trans hreads, ?_, ?_⟩
    · rw [hannotations, annotations_addClause]
    · rw [hclauses, clauses_addClause, List.filterMap_cons]
      cases remainder? ls with
      | none => rfl
      | some c => simp

theorem exists_literals_of_writing {clauses : List (List Int)} (h : ∀ c ∈ clauses, Writing c) :
    ∃ lss : List (List Literal), clauses = lss.map (fun ls => ls.map Literal.toInt) ∧
      ∀ ls ∈ lss, ls ≠ [] ∧ ∀ l ∈ ls, Writable l := by
  induction clauses with
  | nil => exact ⟨[], rfl, List.forall_mem_nil _⟩
  | cons c rest ih =>
    rw [List.forall_mem_cons] at h
    obtain ⟨hc, hrest⟩ := h
    obtain ⟨ls, rfl⟩ := Multiplication.exists_literals hc.nonzero
    obtain ⟨lss, rfl, hlss⟩ := ih hrest
    refine ⟨ls :: lss, rfl, List.forall_mem_cons.2 ⟨⟨?_, ?_⟩, hlss⟩⟩
    · rintro rfl
      exact hc.nonempty rfl
    · exact fun l hl => hc.writable l.toInt (List.mem_map_of_mem hl)

/-- The clauses of signed integers, as the literals that they write. -/
theorem mapM_ofInt (lss : List (List Literal)) :
    (lss.map (fun ls => ls.map Literal.toInt)).mapM (fun c => c.mapM Literal.ofInt) = .ok lss :=
  mapM_map_ok fun _ _ => mapM_map_ok fun l _ => l.ofInt_toInt

/-- A root of lists that have literals is a root of what is left of them. -/
theorem ofSources_written {lss : List (List Literal)} (h : ∀ ls ∈ lss, ls ≠ []) :
    Node.ofSources (lss.map .written) = Node.ofClauses (lss.filterMap remainder?) := by
  unfold Node.ofSources
  rw [List.filterMap_map]
  congr 1
  exact List.filterMap_congr fun ls hls => (remainder?_eq_clause? (h ls hls)).symm

end Clauses

section Printed

variable {source : Option String} {layout : BitLayout} {comments : List (List Char)}
  {header : List Char} {lss : List (List Literal)}

theorem Annotates.unbroken (hcomments : Annotates comments layout)
    (hlayout : ReadableLayout layout) : ∀ line ∈ comments, Unbroken line := by
  intro line hline
  rcases hcomments.others line hline with ⟨o, rfl⟩ | hremark
  · exact unbroken_operand o (fun x hx => ((hlayout o).2 x hx).1)
  · exact hremark.unbroken

/-- What is printed is read as its clauses and its layout. -/
theorem parse_printed (source : Option String) (hcomments : Annotates comments layout)
    (hlayout : ReadableLayout layout) (hheader : Heading header)
    (h : ∀ ls ∈ lss, ls ≠ [] ∧ ∀ l ∈ ls, Writable l) :
    (parse source (printed comments header (lss.map (fun ls => ls.map Literal.toInt)))).result =
      .ok ⟨lss.filterMap remainder?, layout⟩ := by
  obtain ⟨d, hread, hclauses, hfollows, hknown⟩ := exists_readLines_comments source
    (d := Draft.empty) hlayout hcomments.others (fun o bits hbits => nomatch hbits) 1
  obtain ⟨e, hreads, hannotations, heclauses⟩ :=
    exists_readLines_literals source h (1 + comments.length + 1) d
  have hbits : ∀ o, e.bits? o = some (layout.bits o) := by
    intro o
    have hsome := hknown o (Or.inr (hcomments.annotated o))
    obtain ⟨bits, hbits⟩ := Option.isSome_iff_exists.1 hsome
    have hd : d.bits? o = some (layout.bits o) := hbits.trans (congrArg some (hfollows o bits hbits))
    unfold Draft.bits? at hd ⊢
    rw [hannotations, hd]
  have hempty : d.clauses = [] := hclauses
  unfold parse
  rw [lines_printed (hcomments.unbroken hlayout) hheader (fun ls hls => (h ls hls).1),
    readLines_append hread, readLines_cons (readLine_heading hheader _ _ d), hreads]
  simp only [finish, hbits, heclauses, hempty, List.append_nil, List.reverse_reverse]
  rfl

end Printed

end ProblemText

namespace Factorisation

open ProblemText

/-- The bits of the problem are as given, and its root is that of the written clauses. -/
structure ReadsAs (f : Factorisation) (clauses : List (List Int)) (layout : BitLayout) : Prop where
  layout : f.layout = layout
  root : ∃ lss, clauses.mapM (fun c => c.mapM Literal.ofInt) = .ok lss ∧
    f.root = Node.ofSources (lss.map .written)

theorem exists_ofText {source : Option String} {text : List Char} {p : Problem}
    (h : (parse source text).result = .ok p) :
    ofText source text = ((parse source text).notices.map (LogEntry.noticed source) ++
      [LogEntry.parsed source p], .ok (ofProblem p source)) := by
  unfold ofText
  simp only [h]

theorem readsAs_ofProblem {lss : List (List Literal)} (h : ∀ ls ∈ lss, ls ≠ [])
    (layout : BitLayout) (source : Option String) :
    (ofProblem ⟨lss.filterMap remainder?, layout⟩ source).ReadsAs
      (lss.map (fun ls => ls.map Literal.toInt)) layout where
  layout := rfl
  root := ⟨lss, mapM_ofInt lss, (ofSources_written h).symm⟩

/-- Clauses over distinct variables are left as they are. -/
theorem filterMap_remainder? {lss : List (List Literal)}
    (h : ∀ ls ∈ lss, ProblemText.Readable ls) :
    lss.filterMap remainder? = lss.map Clause.ofLiterals := by
  rw [← List.filterMap_eq_map]
  apply List.filterMap_congr
  intro ls hls
  have hkeeps : Clause.KeepsVars ls := by
    intro l hl
    rw [Clause.vars, Clause.literals_ofLiterals (h ls hls).distinct]
    exact List.mem_map_of_mem hl
  exact remainder?_eq_some (h ls hls).nonempty hkeeps

/-- Printing and reading agree: a problem that is printed is read with its bits in order and
with the root of its clauses, and a multiplication that is printed is read without warning,
whatever the room that it was written in and whatever its header. -/
theorem printed_reads_back (source : Option String) :
    (∀ comments header clauses layout, Annotates comments layout → ReadableLayout layout →
      Heading header → (∀ c ∈ clauses, Writing c) →
      ∃ entries f, ofText source (printed comments header clauses) = (entries, .ok f) ∧
        f.ReadsAs clauses layout) ∧
    ∀ (p : Multiplication) (room : ℕ) (d : Dimacs), p.dimacs room = .ok d →
      ∃ entry f, ofText source d.text.toList = ([entry], .ok f) ∧
        (∀ header, Heading header →
          ofText source (printed (d.comments.map String.toList) header d.clauses) =
            ([entry], .ok f)) ∧
        entry.level = .info ∧
        f.ReadsAs d.clauses (Multiplier.build p.product.toNat p.firstBits.toNat
          p.secondBits.toNat p.nontrivial).layout := by
  constructor
  · intro comments header clauses layout hcomments hlayout hheader hclauses
    obtain ⟨lss, rfl, hlss⟩ := exists_literals_of_writing hclauses
    have hparse := parse_printed source hcomments hlayout hheader hlss
    exact ⟨_, _, exists_ofText hparse,
      readsAs_ofProblem (fun ls hls => (hlss ls hls).1) layout source⟩
  · intro p room d hd
    obtain ⟨product, n, m, hp, hadmissible, hcheck, rfl⟩ := Multiplication.exists_encoding hd
    have hM := Multiplier.build_encodes hadmissible.fits hadmissible.wide
    have hsize := Multiplication.size_lt (Capacity.lt_of_checkPower hcheck) rfl hM.size
    obtain ⟨lss, hclauses, hreadable⟩ := Multiplication.exists_readables hsize hM.wellFormed
    have hlayout := Multiplication.readableLayout hM hadmissible.first hadmissible.second hsize
    have hprinted := fun header (hheader : Heading header) =>
      Multiplication.ofText_encoding hclauses hreadable hlayout hheader product (n + m) source
    refine ⟨_, _, ?_, hprinted, rfl, ?_⟩
    · rw [toList_text]
      exact hprinted _ (heading_header _)
    · rw [hp, ← filterMap_remainder? hreadable]
      show ReadsAs _ (Multiplier.build product n m p.nontrivial).circuit.clauses _
      rw [hclauses]
      exact readsAs_ofProblem (fun ls hls => (hreadable ls hls).nonempty) _ source

/-- Three operands of one bit, annotated in reverse order after a remark. -/
def smallLayout : BitLayout := ⟨[3], [1], [2]⟩

def smallComments : List (List Char) :=
  "c output first: [4]".toList :: Operand.all.reverse.map (annotationLine smallLayout)

theorem annotates_smallComments : Annotates smallComments smallLayout where
  annotated o := by
    cases o <;> simp [smallComments, Operand.all]
  others line hline := by
    rcases List.mem_cons.1 hline with rfl | hline
    · exact Or.inr ⟨rfl, by decide, fun o => by cases o <;> rfl⟩
    · obtain ⟨o, -, rfl⟩ := List.mem_map.1 hline
      exact Or.inl ⟨o, rfl⟩

theorem readableLayout_small : ReadableLayout smallLayout := by
  have hlimit : 10 ^ 1 ≤ 10 ^ digitLimit := Nat.pow_le_pow_right (by decide) (by decide)
  intro o
  cases o <;> refine ⟨List.cons_ne_nil _ _, fun x hx => ?_⟩ <;>
    cases List.mem_singleton.1 hx <;> exact ⟨by decide, lt_of_lt_of_le (by decide) hlimit⟩

/-- A problem with a clause that cancels is read, and so is the multiplication of six, also
below a header without numbers. -/
theorem small_reads_back :
    (∃ entries f, ofText none (printed smallComments "p cnf 3 2".toList [[1, -3], [2, -2]]) =
      (entries, .ok f) ∧ f.ReadsAs [[1, -3], [2, -2]] smallLayout) ∧
    ∃ d entry f, Multiplication.dimacs ⟨6, 2, 2, true⟩ Capacity.usualRoom = .ok d ∧
      ofText none d.text.toList = ([entry], .ok f) ∧
      ofText none (printed (d.comments.map String.toList) "p".toList d.clauses) =
        ([entry], .ok f) ∧
      entry.level = .info ∧
      f.ReadsAs d.clauses (Multiplier.build 6 2 2 true).layout := by
  have hlimit : 10 ^ 1 ≤ 10 ^ digitLimit := Nat.pow_le_pow_right (by decide) (by decide)
  have hwriting : ∀ c ∈ [[1, -3], [2, -2]], Writing c := by
    intro c hc
    have hbounds : c ≠ [] ∧ (∀ z ∈ c, z ≠ 0) ∧ ∀ z ∈ c, z.natAbs < 10 ^ 1 := by
      revert c
      decide
    exact ⟨hbounds.1, hbounds.2.1, fun z hz => lt_of_lt_of_le (hbounds.2.2 z hz) hlimit⟩
  have hdimacs := Multiplication.dimacs_eq Multiplication.admissible_six Capacity.usualRoom
  have hcheck : Capacity.checkPower Capacity.usualRoom (2 + 2) = .ok () := by rfl
  rw [hcheck] at hdimacs
  obtain ⟨hsmall, hwritten⟩ := printed_reads_back none
  obtain ⟨entry, f, htext, hprinted, hlevel, hreads⟩ := hwritten _ _ _ hdimacs
  exact ⟨hsmall _ _ _ _ annotates_smallComments readableLayout_small ⟨rfl, by decide⟩ hwriting,
    _, entry, f, hdimacs, htext, hprinted "p".toList ⟨rfl, by decide⟩, hlevel, hreads⟩

end Factorisation

end FactorSearch
