import FactorSearch.Proofs.PrintedProblems
import FactorSearch.Proofs.ReadingOutcome

/-!
Problems whose lines are arranged otherwise. Clause lines add to the clauses and comments settle
operands, and neither looks at what the other has done; blank lines and headers do nothing. So a
problem is a matter of two rows of lines, the clause lines and the comments, and so is whether
there is one at all; only the error that is reported depends on how the two are mixed. A comment
about operands that are settled already says nothing.
-/

namespace FactorSearch

open Text

namespace ProblemText

instance : DecidablePred IsComment := fun line => inferInstanceAs (Decidable (line.head? = some 'c'))

/-- The comments of a list of lines, without the blanks around them. -/
def commentLines (ls : List (List Char)) : List (List Char) :=
  (ls.map strip).filter fun line => IsComment line

/-- Operands with the variables of their bits, the latest first. -/
abbrev Known := List (Operand × List Int)

/-- What is known after a comment. -/
def settle (known : Known) (line : List Char) : Except ProblemFault Known :=
  Draft.annotations <$> annotate ⟨[], known, []⟩ line Operand.all

def Knows (known : Known) (o : Operand) : Prop := ((Draft.mk [] known []).bits? o).isSome = true

/-- The clauses and the bits of a draft, if its lines were read to the end. -/
def readTo? : Draft × Option ProblemError → Option (List Clause × Known)
  | (d, none) => some (d.clauses, d.annotations)
  | (_, some _) => none

/-- The problem of a row of clause lines and a row of comments, if both can be read. -/
def arranged (clauses comments : List (List Char)) : Option Problem := do
  let lss ← (clauses.mapM literalsOf).toOption
  let known ← (comments.foldlM settle []).toOption
  (finish none ⟨(lss.filterMap remainder?).reverse, known, []⟩).toOption

/-- The comment annotates no operand but those that have been annotated before. -/
def Idle (before : List (List Char)) (line : List Char) : Prop :=
  ∀ o text, IsAnnotation o line text → Annotated before o

section Streams

/-- A comment is read alike whatever clauses and notices there are. -/
theorem annotate_eq_map (d : Draft) (line : List Char) (ops : List Operand) :
    annotate d line ops =
      (fun e => { d with annotations := e.annotations }) <$>
        annotate ⟨[], d.annotations, []⟩ line ops := by
  induction ops generalizing d with
  | nil => rfl
  | cons o rest ih =>
    have hbits : d.bits? o = (Draft.mk [] d.annotations []).bits? o := rfl
    rw [annotate, annotate, ← hbits]
    split
    · exact ih d
    · cases annotation? o line with
      | none => exact ih d
      | some text =>
        dsimp only
        cases parseList o text with
        | error fault => rfl
        | ok vars => exact ih _

theorem annotate_eq_settle (d : Draft) (line : List Char) :
    annotate d line Operand.all =
      (fun known => { d with annotations := known }) <$> settle d.annotations line := by
  rw [annotate_eq_map, settle]
  cases annotate ⟨[], d.annotations, []⟩ line Operand.all <;> rfl

theorem clauseLines_cons (line : List Char) (ls : List (List Char)) :
    clauseLines (line :: ls) =
      if isClauseLine (strip line) then strip line :: clauseLines ls else clauseLines ls := by
  rw [clauseLines, List.map_cons, List.filter_cons]
  rfl

theorem commentLines_cons (line : List Char) (ls : List (List Char)) :
    commentLines (line :: ls) =
      if IsComment (strip line) then strip line :: commentLines ls else commentLines ls := by
  rw [commentLines, List.map_cons, List.filter_cons]
  simp only [decide_eq_true_eq]
  rfl

/-- Clause lines and comments are read independently, whatever their order. -/
theorem readTo?_readLines (source : Option String) (lineNo : ℕ) (d : Draft)
    (ls : List (List Char)) :
    readTo? (readLines source lineNo d ls) =
      ((clauseLines ls).mapM literalsOf).toOption.bind fun lss =>
        ((commentLines ls).foldlM settle d.annotations).toOption.map fun known =>
          ((lss.filterMap remainder?).reverse ++ d.clauses, known) := by
  induction ls generalizing lineNo d with
  | nil => rfl
  | cons line rest ih =>
    rw [readLines, clauseLines_cons, commentLines_cons]
    by_cases hclause : isClauseLine (strip line) = true
    · rw [readLine_of_isClauseLine source _ d hclause, if_pos hclause,
        if_neg (not_isComment_of_isClauseLine hclause), List.mapM_cons]
      cases literalsOf (strip line) with
      | error fault => rfl
      | ok ls =>
        dsimp only
        rw [ih, clauses_addClause, annotations_addClause]
        cases (clauseLines rest).mapM literalsOf with
        | error fault => rfl
        | ok lss =>
          show Option.map _ _ = Option.map _ _
          congr 1
          funext known
          rw [List.filterMap_cons]
          cases remainder? ls with
          | none => rfl
          | some c => simp
    · rw [if_neg hclause]
      by_cases hcomment : IsComment (strip line)
      · rw [readLine_of_isComment source _ d hcomment, if_pos hcomment, annotate_eq_settle,
          List.foldlM_cons]
        cases settle d.annotations (strip line) with
        | error fault =>
          -- later clause lines may be at fault as well, which makes no difference
          cases (clauseLines rest).mapM literalsOf <;> rfl
        | ok known => exact ih _ _
      · rw [readLine_of_other source _ d (Bool.eq_false_iff.2 hclause) hcomment, if_neg hcomment]
        exact ih _ _

/-- The source is shown in errors only. -/
theorem toOption_finish (source : Option String) (d : Draft) :
    (finish source d).toOption =
      (finish none ⟨d.clauses, d.annotations, []⟩).toOption := by
  have hbits : ∀ o, (Draft.mk d.clauses d.annotations []).bits? o = d.bits? o := fun _ => rfl
  unfold finish
  simp only [hbits]
  cases d.bits? .output <;> cases d.bits? .first <;> cases d.bits? .second <;> rfl

/-- Which problem a text has, if it has one, is a matter of its clause lines and its comments. -/
theorem toOption_parse (source : Option String) (text : List Char) :
    (parse source text).result.toOption =
      arranged (clauseLines (lines text)) (commentLines (lines text)) := by
  have hread := readTo?_readLines source 1 Draft.empty (lines text)
  have hfinish : (parse source text).result.toOption =
      (readTo? (readLines source 1 Draft.empty (lines text))).bind fun r =>
        (finish none ⟨r.1, r.2, []⟩).toOption := by
    unfold parse
    generalize readLines source 1 Draft.empty (lines text) = r
    obtain ⟨d, error?⟩ := r
    cases error? with
    | none => exact toOption_finish source d
    | some e => rfl
  rw [hfinish, hread, arranged]
  cases (clauseLines (lines text)).mapM literalsOf with
  | error fault => rfl
  | ok lss =>
    have hnone : Draft.empty.annotations = [] := rfl
    rw [hnone]
    cases (commentLines (lines text)).foldlM settle [] with
    | error fault => rfl
    | ok known =>
      show (finish none ⟨_ ++ [], known, []⟩).toOption = _
      rw [List.append_nil]
      rfl

end Streams

section Idle

variable {known now : Known} {before extra after : List (List Char)} {line : List Char}

/-- A comment about operands whose bits are known changes nothing. -/
theorem annotate_eq_self {d : Draft}
    (h : ∀ o text, IsAnnotation o line text → (d.bits? o).isSome = true) :
    annotate d line Operand.all = .ok d := by
  apply annotate_of_settled
  intro o _
  cases hline : annotation? o line with
  | none => exact .inr rfl
  | some text => exact .inl (h o text (annotation?_eq_some_iff.1 hline))

theorem settle_eq_self (h : ∀ o text, IsAnnotation o line text → Knows known o) :
    settle known line = .ok known := by
  rw [settle, annotate_eq_self h]
  rfl

/-- After comments the operands that they annotate are known. -/
theorem knows_of_settle (h : settle known line = .ok now) {o : Operand}
    (ho : Knows known o ∨ ∃ text, IsAnnotation o line text) : Knows now o := by
  unfold settle at h
  cases hannotate : annotate ⟨[], known, []⟩ line Operand.all with
  | error fault =>
    rw [hannotate] at h
    cases h
  | ok e =>
    rw [hannotate] at h
    cases h
    have hsettles := settles_of_annotate nodup_all hannotate (mem_all o)
    show (e.bits? o).isSome = true
    unfold Knows at ho
    generalize (Draft.mk [] known []).bits? o = old, e.bits? o = new at hsettles ho
    cases hsettles with
    | known vars => rfl
    | silent hsilent => exact absurd ho (by simpa using hsilent)
    | read _ _ => rfl

theorem knows_of_foldlM (h : before.foldlM settle known = .ok now) {o : Operand}
    (ho : Knows known o ∨ Annotated before o) : Knows now o := by
  induction before generalizing known with
  | nil =>
    cases h
    exact ho.resolve_right (by simp [Annotated])
  | cons line rest ih =>
    rw [List.foldlM_cons] at h
    cases hline : settle known line with
    | error fault =>
      rw [hline] at h
      cases h
    | ok next =>
      rw [hline] at h
      apply ih h
      rw [Annotated, List.exists_mem_cons_iff, ← or_assoc] at ho
      exact ho.imp_left (knows_of_settle hline)

/-- Comments that say nothing new can be left out. -/
theorem foldlM_settle_idle (h : ∀ line ∈ extra, Idle before line) :
    (before ++ (extra ++ after)).foldlM settle [] = (before ++ after).foldlM settle [] := by
  rw [List.foldlM_append, List.foldlM_append]
  cases hbefore : before.foldlM settle [] with
  | error fault => rfl
  | ok known =>
    have hextra : extra.foldlM settle known = .ok known := by
      induction extra with
      | nil => rfl
      | cons line rest ih =>
        rw [List.forall_mem_cons] at h
        rw [List.foldlM_cons, settle_eq_self]
        · exact ih h.2
        · exact fun o text hline => knows_of_foldlM hbefore (.inr (h.1 o text hline))
    show (extra ++ after).foldlM settle known = after.foldlM settle known
    rw [List.foldlM_append, hextra]
    rfl

end Idle

section Appended

variable {source : Option String} {d e : Draft} {before : List (List Char)}

theorem readLines_append_of_error {lineNo : ℕ} {xs : List (List Char)} {err : ProblemError}
    (h : readLines source lineNo d xs = (e, some err)) (ys : List (List Char)) :
    readLines source lineNo d (xs ++ ys) = (e, some err) := by
  induction xs generalizing d lineNo with
  | nil => cases h
  | cons x rest ih =>
    rw [readLines] at h
    rw [List.cons_append, readLines]
    split at h
    · exact ih h
    · exact h

/-- Comments that say nothing new leave a draft as it is. -/
theorem Draft.Reads.readLines_idle (hd : d.Reads before) (source : Option String) (lineNo : ℕ)
    {extra : List (List Char)}
    (h : ∀ line ∈ extra, IsComment (strip line) ∧ Idle before (strip line)) :
    ProblemText.readLines source lineNo d extra = (d, none) := by
  induction extra generalizing lineNo with
  | nil => rfl
  | cons line rest ih =>
    rw [List.forall_mem_cons] at h
    obtain ⟨⟨hcomment, hidle⟩, hrest⟩ := h
    have hannotate : annotate d (strip line) Operand.all = .ok d :=
      annotate_eq_self fun o text hline => (hd.annotated o).2 (hidle o text hline)
    rw [ProblemText.readLines, readLine_of_isComment source _ d hcomment, hannotate]
    exact ih (lineNo + 1) hrest

theorem parse_appended {text text' : List Char} {extra : List (List Char)}
    (hlines : lines text' = lines text ++ extra)
    (h : ∀ line ∈ extra, IsComment (strip line) ∧ Idle ((lines text).map strip) (strip line)) :
    parse source text' = parse source text := by
  have hread : readLines source 1 Draft.empty (lines text') =
      readLines source 1 Draft.empty (lines text) := by
    rw [hlines]
    rcases Draft.reads_empty.readLines source (lines text) with
      ⟨e, hend, he⟩ | ⟨e, err, -, -, -, hend, -⟩
    · have hstart : readLines source 1 Draft.empty (lines text) = (e, none) := hend
      rw [readLines_append hstart, hstart]
      exact he.readLines_idle source _ h
    · have hstart : readLines source 1 Draft.empty (lines text) = (e, some err) := hend
      rw [readLines_append_of_error hstart, hstart]
  rw [parse, parse, hread]

end Appended

/-- Texts with the same clause lines and the same comments, in the same order each, have the same
problem or none; they may differ in blank lines, headers, blanks, breaks, and how the two rows
are mixed. Further comments change nothing where all operands that they annotate have been
annotated before, and at the end of a text not even what is noticed and reported. -/
theorem parse_rearranged (source source' : Option String) (text text' : List Char) :
    let result := (parse source text).result
    let result' := (parse source' text').result
    (clauseLines (lines text) = clauseLines (lines text') →
      commentLines (lines text) = commentLines (lines text') →
        result.toOption = result'.toOption) ∧
      (∀ before extra after, clauseLines (lines text) = clauseLines (lines text') →
        commentLines (lines text) = before ++ after →
        commentLines (lines text') = before ++ (extra ++ after) →
        (∀ line ∈ extra, Idle before line) → result.toOption = result'.toOption) ∧
      ∀ extra, lines text' = lines text ++ extra →
        (∀ line ∈ extra, IsComment (strip line) ∧ Idle ((lines text).map strip) (strip line)) →
        parse source text' = parse source text := by
  intro result result'
  have hresult : result.toOption =
      arranged (clauseLines (lines text)) (commentLines (lines text)) := toOption_parse source text
  have hresult' : result'.toOption =
      arranged (clauseLines (lines text')) (commentLines (lines text')) :=
    toOption_parse source' text'
  refine ⟨fun hclauses hcomments => ?_, fun before extra after hclauses hold hnew hidle => ?_,
    fun extra hlines hidle => parse_appended hlines hidle⟩
  · rw [hresult, hresult', hclauses, hcomments]
  · rw [hresult, hresult', hclauses, hold, hnew, arranged, arranged, foldlM_settle_idle hidle]

/-- The comments of three operands, and then two clauses. -/
def straight : List Char :=
  ["c v output:[3]\n", "c v first input:[1]\n", "c v second input:[2]\n", "1 -3 0\n",
    "2 -3 0\n"].flatMap String.toList

/-- The same lines between other blanks, breaks and headers. -/
def mixed : List Char :=
  ["p cnf 3 2\r\n", "\t1 -3 0 \u2028", "c v output:[3]\n\n", "  c v first input:[1]\r",
    "2 -3 0\x0c", "c v second input:[2]\n"].flatMap String.toList

/-- A list without a number, for an operand that is annotated before. -/
def late : List Char := "c v output:[,]".toList

theorem idle_late {before : List (List Char)} (h : Annotated before .output) :
    Idle before late := by
  intro o text hline
  have hread := annotation?_eq_some_iff.2 hline
  cases o with
  | output => exact h
  | first => cases hread
  | second => cases hread

theorem annotated_straight : Annotated (commentLines (lines straight)) .output := by
  have hread : annotation? .output "c v output:[3]".toList = some ['3'] := by rfl
  exact ⟨_, by decide +kernel, _, annotation?_eq_some_iff.1 hread⟩

theorem parse_rearranged_mixed :
    clauseLines (lines straight) = clauseLines (lines mixed) ∧
      commentLines (lines straight) = commentLines (lines mixed) ∧
      lines (mixed ++ late) = lines mixed ++ [late] ∧
      commentLines (lines (mixed ++ late)) = commentLines (lines straight) ++ [late] ∧
      (∃ p, (parse none straight).result.toOption = some p ∧
        (parse none mixed).result.toOption = some p ∧
        (parse none (mixed ++ late)).result.toOption = some p) ∧
      parse none (mixed ++ late) = parse none mixed := by
  have hclauses : clauseLines (lines straight) = clauseLines (lines mixed) := by decide +kernel
  have hcomments : commentLines (lines straight) = commentLines (lines mixed) := by decide +kernel
  have hlines : lines (mixed ++ late) = lines mixed ++ [late] := by decide +kernel
  have hclauses' : clauseLines (lines straight) = clauseLines (lines (mixed ++ late)) := by
    decide +kernel
  have hcomments' : commentLines (lines (mixed ++ late)) =
      commentLines (lines straight) ++ [late] := by
    decide +kernel
  have hstrip : strip late = late := by decide +kernel
  have hsome : (parse none straight).result.toOption.isSome = true := by decide +kernel
  obtain ⟨p, hp⟩ := Option.isSome_iff_exists.1 hsome
  have hmixed := (parse_rearranged none none _ _).1 hclauses hcomments
  have hlate := (parse_rearranged none none _ _).2.1 _ _ [] hclauses' (List.append_nil _).symm
    hcomments' (List.forall_mem_singleton.2 (idle_late annotated_straight))
  have happended := (parse_rearranged none none _ _).2.2 _ hlines (List.forall_mem_singleton.2 (by
    rw [hstrip]
    refine ⟨rfl, idle_late ?_⟩
    obtain ⟨line, hline, hread⟩ := annotated_straight
    rw [hcomments] at hline
    exact ⟨line, List.mem_of_mem_filter hline, hread⟩))
  exact ⟨hclauses, hcomments, hlines, hcomments', ⟨p, hp, hmixed ▸ hp, hlate ▸ hp⟩, happended⟩

end ProblemText

end FactorSearch
