import FactorSearch.Proofs.LineFaults

/-!
How reading a problem ends. The lines are read in order, and which operands a draft knows is a
matter of the lines before. So the fault that stops the reading is that of the first malformed
line, and it is there whenever a line is malformed. If none is, the operands decide: either each
is annotated by some line, or the first that is not is reported as missing.
-/

namespace FactorSearch

open Text

namespace ProblemText

/-- Some line annotates the operand. -/
def Annotated (ls : List (List Char)) (o : Operand) : Prop :=
  ∃ line ∈ ls, ∃ text, IsAnnotation o line text

/-- The line annotates the operand first, with a list of something else than positive integers. -/
def ListMalformed (before : List (List Char)) (line : List Char) (o : Operand) : Prop :=
  ¬ Annotated before o ∧
    ∃ text, IsAnnotation o line text ∧ ∃ item ∈ fields (· = ',') text, ¬ IsVariable item

/-- A line that is malformed after the lines before it. -/
def Malformed (before : List (List Char)) (line : List Char) : Prop :=
  ClauseMalformed line ∨ ∃ o, ListMalformed before line o

def WellFormed (ls : List (List Char)) : Prop :=
  ∀ before line after, ls = before ++ line :: after → ¬ Malformed before line

/-- The first malformed line and its number, counted from one. -/
def FirstMalformed (ls : List (List Char)) (k : ℕ) (line : List Char) : Prop :=
  ∃ before after, ls = before ++ line :: after ∧ k = before.length + 1 ∧
    WellFormed before ∧ Malformed before line

/-- A problem of clauses that are not empty, and with bits for every operand. -/
structure Complete (p : Problem) : Prop where
  clauses : ∀ c ∈ p.clauses, c.isEmpty = false ∧ c.vars.Nodup ∧ ∀ x ∈ c.vars, 0 < x
  bits : ∀ o, p.layout.bits o ≠ [] ∧ ∀ x ∈ p.layout.bits o, 0 < x

/-- What is reported of a line after the lines before it. -/
inductive LineFault (source : Option String) (before : List (List Char)) (line : List Char) :
    ProblemError → Prop
  | clause {fault : ProblemFault} (hline : isClauseLine line = true) (h : ClauseFault line fault) :
      LineFault source before line ⟨fault, source, some (before.length + 1 : ℕ), some line⟩
  | comment {o : Operand} {text : List Char} {fault : ProblemFault}
      (first : IsFirst (ListMalformed before line) Operand.all o) (hline : IsAnnotation o line text)
      (h : ListFault o text fault) : LineFault source before line ⟨fault, source, none, none⟩

section Lines

variable {before ls : List (List Char)} {line : List Char} {o : Operand}

theorem IsAnnotation.isComment {text : List Char} (h : IsAnnotation o line text) :
    IsComment line := by
  obtain ⟨named, rest, rfl, -⟩ := h
  rfl

theorem IsAnnotation.unique {text text' : List Char} (h : IsAnnotation o line text)
    (h' : IsAnnotation o line text') : text = text' := by
  rw [← annotation?_eq_some_iff] at h h'
  rw [h] at h'
  exact Option.some.inj h'

theorem not_isComment_of_isClauseLine (h : isClauseLine line = true) : ¬ IsComment line := by
  intro hcomment
  obtain ⟨rest, rfl⟩ := List.head?_eq_some_iff.1 hcomment
  exact absurd h (by simp [isClauseLine])

theorem LineFault.malformed {source : Option String} {e : ProblemError}
    (h : LineFault source before line e) : Malformed before line := by
  cases h with
  | clause hline h => exact .inl (h.malformed hline)
  | comment first _ _ =>
    obtain ⟨_, _, -, hmalformed, -⟩ := first
    exact .inr ⟨_, hmalformed⟩

theorem annotated_concat :
    Annotated (before ++ [line]) o ↔ Annotated before o ∨ ∃ text, IsAnnotation o line text := by
  unfold Annotated
  simp only [List.mem_append, List.mem_singleton, or_and_right, exists_or, exists_eq_left]

theorem WellFormed.concat (h : WellFormed before) (hline : ¬ Malformed before line) :
    WellFormed (before ++ [line]) := by
  intro start l after heq
  rcases List.eq_nil_or_concat after with rfl | ⟨after, last, rfl⟩
  · obtain ⟨rfl, hlast⟩ := List.append_inj' heq rfl
    cases hlast
    exact hline
  · rw [List.concat_eq_append, ← List.cons_append, ← List.append_assoc] at heq
    exact h start l after (List.append_inj' heq rfl).1

theorem FirstMalformed.not_wellFormed {k : ℕ} (h : FirstMalformed ls k line) : ¬ WellFormed ls := by
  obtain ⟨before, after, rfl, -, -, hmalformed⟩ := h
  exact fun hls => hls before line after rfl hmalformed

end Lines

section Reading

variable {before : List (List Char)} {line : List Char} {d e : Draft}

/-- What a draft knows after lines without a fault. -/
structure Draft.Reads (d : Draft) (ls : List (List Char)) : Prop where
  wellFormed : WellFormed ls
  clauses : ∀ c ∈ d.clauses, c.isEmpty = false
  annotated : ∀ o, (d.bits? o).isSome = true ↔ Annotated ls o
  bits : ∀ o vars, d.bits? o = some vars → vars ≠ [] ∧ ∀ x ∈ vars, 0 < x

theorem Draft.reads_empty : Draft.empty.Reads [] where
  wellFormed before line after heq := absurd heq.symm (by simp)
  clauses := List.forall_mem_nil _
  annotated o := iff_of_false Bool.false_ne_true (by simp [Annotated])
  bits o vars h := by cases h

/-- Other lines than comments leave the bits of every operand alone. -/
theorem settles_of_not_isComment (h : ¬ IsComment line) (o : Operand) (known : Option (List Int)) :
    Settles line o known known := by
  cases known with
  | none => exact .silent fun text htext => h htext.isComment
  | some vars => exact .known vars

/-- Once the bits of an operand are settled, its list is not at fault. -/
theorem Draft.Reads.not_listMalformed (hd : d.Reads before) {o : Operand}
    {now : Option (List Int)} (h : Settles line o (d.bits? o) now) :
    ¬ ListMalformed before line o := by
  intro hmalformed
  obtain ⟨hnew, text, hline, item, hitem, hinvalid⟩ := hmalformed
  rw [← hd.annotated] at hnew
  generalize d.bits? o = known at h hnew
  cases h with
  | known vars => exact hnew rfl
  | silent hsilent => exact hsilent text hline
  | read hread hlist =>
    cases hline.unique hread
    exact hinvalid ((of_parseList hlist).1 item hitem)

/-- One more line, of which the clauses and the bits of every operand are known. -/
theorem Draft.Reads.concat (hd : d.Reads before) (hline : ¬ ClauseMalformed line)
    (hclauses : ∀ c ∈ e.clauses, c.isEmpty = false)
    (hbits : ∀ o, Settles line o (d.bits? o) (e.bits? o)) : e.Reads (before ++ [line]) where
  wellFormed := by
    apply hd.wellFormed.concat
    intro hmalformed
    rcases hmalformed with hclause | ⟨o, hlist⟩
    · exact hline hclause
    · exact hd.not_listMalformed (hbits o) hlist
  clauses := hclauses
  annotated o := by
    rw [annotated_concat, ← hd.annotated]
    have h := hbits o
    generalize d.bits? o = known, e.bits? o = now at h
    cases h with
    | known vars => exact iff_of_true rfl (.inl rfl)
    | silent hsilent => exact iff_of_false Bool.false_ne_true (by simpa using hsilent)
    | read hread _ => exact iff_of_true rfl (.inr ⟨_, hread⟩)
  bits o vars hvars := by
    have h := hbits o
    have hknown := hd.bits o
    generalize d.bits? o = known at h hknown
    rw [hvars] at h
    cases h with
    | known => exact hknown vars rfl
    | read _ hlist => exact (of_parseList hlist).2

/-- A line is read into the draft, or its fault is reported. -/
theorem Draft.Reads.readLine (hd : d.Reads before) (source : Option String) (line : List Char) :
    (∃ e, readLine source (before.length + 1) line d = .ok e ∧ e.Reads (before ++ [line])) ∨
      ∃ err, readLine source (before.length + 1) line d = .error err ∧
        LineFault source before line err := by
  by_cases hclause : isClauseLine line = true
  · have hother := not_isComment_of_isClauseLine hclause
    rw [readLine_of_isClauseLine source _ d hclause]
    cases hliterals : literalsOf line with
    | ok ls =>
      refine .inl ⟨_, rfl, hd.concat (not_clauseMalformed_of_literalsOf hliterals) ?_ fun o => ?_⟩
      · rw [clauses_addClause, List.forall_mem_append]
        refine ⟨fun c hc => ?_, hd.clauses⟩
        unfold remainder? at hc
        split at hc
        · simp at hc
        · rename_i hne
          rw [Option.toList_some, List.mem_singleton] at hc
          subst hc
          exact Bool.eq_false_iff.2 hne
      · have hsame : (addClause d (before.length + 1) line ls).bits? o = d.bits? o := by
          rw [Draft.bits?, annotations_addClause]
          rfl
        rw [hsame]
        exact settles_of_not_isComment hother o _
    | error fault => exact .inr ⟨_, rfl, .clause hclause (clauseFault_of_literalsOf hliterals)⟩
  · have hnot : ¬ ClauseMalformed line := fun h => hclause h.1
    by_cases hcomment : IsComment line
    · rw [readLine_of_isComment source _ d hcomment]
      cases hannotate : annotate d line Operand.all with
      | ok e =>
        refine .inl ⟨e, rfl, hd.concat hnot ?_ fun o => ?_⟩
        · rw [annotate_eq hannotate]
          exact hd.clauses
        · exact settles_of_annotate nodup_all hannotate (mem_all o)
      | error fault =>
        obtain ⟨done, o, later, text, hall, hnew, hline, hlist, hdone⟩ :=
          exists_of_annotate_eq_error nodup_all hannotate
        have hfault := listFault_of_parseList hlist
        have hmalformed : ListMalformed before line o := by
          refine ⟨?_, text, hline, hfault.exists_not_isVariable⟩
          rw [← hd.annotated, hnew]
          exact Bool.false_ne_true
        refine .inr ⟨_, rfl, .comment ⟨done, later, hall, hmalformed, fun p hp => ?_⟩ hline hfault⟩
        obtain ⟨now, hsettles⟩ := hdone p hp
        exact hd.not_listMalformed hsettles
    · rw [readLine_of_other source _ d (Bool.eq_false_iff.2 hclause) hcomment]
      exact .inl ⟨d, rfl, hd.concat hnot hd.clauses fun o => settles_of_not_isComment hcomment o _⟩

/-- The lines are read to the end, or up to the first malformed one, whose fault is reported. -/
theorem Draft.Reads.readLines (hd : d.Reads before) (source : Option String)
    (rest : List (List Char)) :
    (∃ e, readLines source (before.length + 1) d rest = (e, none) ∧
        e.Reads (before ++ rest.map strip)) ∨
      ∃ e err read line after, readLines source (before.length + 1) d rest = (e, some err) ∧
        before ++ rest.map strip = read ++ line :: after ∧ WellFormed read ∧
        LineFault source read line err := by
  induction rest generalizing d before with
  | nil => exact .inl ⟨d, rfl, by simpa using hd⟩
  | cons raw rest ih =>
    rw [List.map_cons, List.append_cons]
    rcases hd.readLine source (strip raw) with ⟨e, hread, he⟩ | ⟨err, hread, hfault⟩
    · rw [ProblemText.readLines, hread]
      have hrest := ih he
      rwa [List.length_append, List.length_singleton] at hrest
    · refine .inr ⟨d, err, before, strip raw, rest.map strip, ?_, ?_, hd.wellFormed, hfault⟩
      · rw [ProblemText.readLines, hread]
      · rw [List.append_assoc, List.singleton_append]

end Reading

/-- How reading the lines of a problem ends. -/
inductive Outcome (source : Option String) (ls : List (List Char)) :
    Except ProblemError Problem → Prop
  | complete {p : Problem} (wellFormed : WellFormed ls) (annotated : ∀ o, Annotated ls o)
      (h : Complete p) : Outcome source ls (.ok p)
  | malformed {read after : List (List Char)} {line : List Char} {e : ProblemError}
      (split : ls = read ++ line :: after) (wellFormed : WellFormed read)
      (h : LineFault source read line e) : Outcome source ls (.error e)
  | missing {o : Operand} (wellFormed : WellFormed ls)
      (first : IsFirst (fun p => ¬ Annotated ls p) Operand.all o) :
      Outcome source ls (.error ⟨.missing o, source, none, none⟩)

theorem Draft.Reads.finish {d : Draft} {ls : List (List Char)} (hd : d.Reads ls)
    (source : Option String) : Outcome source ls (finish source d) := by
  have hknown : ∀ o, (d.bits? o).isSome = true → Annotated ls o := fun o => (hd.annotated o).1
  have hmissing : ∀ o, d.bits? o = none → ¬ Annotated ls o := by
    intro o hnone
    rw [← hd.annotated, hnone]
    exact Bool.false_ne_true
  unfold ProblemText.finish
  cases houtput : d.bits? .output with
  | none =>
    exact .missing hd.wellFormed
      ⟨[], [.first, .second], rfl, hmissing .output houtput, List.forall_mem_nil _⟩
  | some output =>
    have hout := hknown .output (by rw [houtput]; rfl)
    cases hfirst : d.bits? .first with
    | none =>
      refine .missing hd.wellFormed ⟨[.output], [.second], rfl, hmissing .first hfirst, ?_⟩
      exact List.forall_mem_singleton.2 (not_not.2 hout)
    | some first =>
      have hone := hknown .first (by rw [hfirst]; rfl)
      cases hsecond : d.bits? .second with
      | none =>
        refine .missing hd.wellFormed ⟨[.output, .first], [], rfl, hmissing .second hsecond, ?_⟩
        exact List.forall_mem_cons.2 ⟨not_not.2 hout, List.forall_mem_singleton.2 (not_not.2 hone)⟩
      | some second =>
        have htwo := hknown .second (by rw [hsecond]; rfl)
        refine .complete hd.wellFormed (fun o => by cases o <;> assumption) ⟨?_, ?_⟩
        · intro c hc
          refine ⟨hd.clauses c (List.mem_reverse.1 hc), c.nodup_vars, fun x hx => ?_⟩
          obtain ⟨l, -, rfl⟩ := Clause.mem_vars.1 hx
          exact l.var_pos
        · intro o
          cases o with
          | output => exact hd.bits .output output houtput
          | first => exact hd.bits .first first hfirst
          | second => exact hd.bits .second second hsecond

theorem outcome_parse (source : Option String) (text : List Char) :
    Outcome source ((lines text).map strip) (parse source text).result := by
  unfold parse
  rcases Draft.reads_empty.readLines source (lines text) with
    ⟨e, hread, he⟩ | ⟨e, err, read, line, after, hread, hsplit, hwellFormed, hfault⟩
  · have hstart : readLines source 1 Draft.empty (lines text) = (e, none) := hread
    rw [hstart]
    exact he.finish source
  · have hstart : readLines source 1 Draft.empty (lines text) = (e, some err) := hread
    rw [hstart]
    exact .malformed hsplit hwellFormed hfault

namespace Outcome

variable {source : Option String} {ls : List (List Char)} {result : Except ProblemError Problem}

theorem exists_ok_iff (h : Outcome source ls result) :
    (∃ p, result = .ok p) ↔ WellFormed ls ∧ ∀ o, Annotated ls o := by
  cases h with
  | complete wellFormed annotated _ => exact iff_of_true ⟨_, rfl⟩ ⟨wellFormed, annotated⟩
  | malformed split wellFormed h =>
    refine iff_of_false (by simp) fun hboth => ?_
    exact hboth.1 _ _ _ split h.malformed
  | missing wellFormed first =>
    refine iff_of_false (by simp) fun hboth => ?_
    obtain ⟨_, _, -, hmissing, -⟩ := first
    exact hmissing (hboth.2 _)

theorem complete_of_ok {p : Problem} (h : Outcome source ls (.ok p)) : Complete p := by
  cases h with
  | complete _ _ h => exact h

/-- A clause fault is reported with the number of its line and the line. -/
theorem exists_clauseFault_iff (h : Outcome source ls result) (k : ℕ) (line : List Char) :
    (∃ fault, ClauseFault line fault ∧ result = .error ⟨fault, source, some k, some line⟩) ↔
      FirstMalformed ls k line ∧ isClauseLine line = true := by
  constructor
  · intro hexists
    obtain ⟨fault, -, rfl⟩ := hexists
    cases h with
    | malformed split wellFormed h =>
      have hmalformed := h.malformed
      cases h with
      | clause hline _ => exact ⟨⟨_, _, split, rfl, wellFormed, hmalformed⟩, hline⟩
  · intro hboth
    obtain ⟨hfirst, hline⟩ := hboth
    cases h with
    | complete wellFormed _ _ => exact absurd wellFormed hfirst.not_wellFormed
    | missing wellFormed _ => exact absurd wellFormed hfirst.not_wellFormed
    | malformed split wellFormed h =>
      obtain ⟨before, after, hls, rfl, hbefore, hmalformed⟩ := hfirst
      obtain ⟨rfl, rfl⟩ :=
        eq_of_first (hls.symm.trans split) hmalformed hbefore h.malformed wellFormed
      cases h with
      | clause _ h => exact ⟨_, h, rfl⟩
      | comment _ hannotation _ =>
        exact absurd hannotation.isComment (not_isComment_of_isClauseLine hline)

/-- A list fault is reported without a line. -/
theorem exists_listFault_iff (h : Outcome source ls result) :
    (∃ o text fault, ListFault o text fault ∧ result = .error ⟨fault, source, none, none⟩) ↔
      ∃ k line, FirstMalformed ls k line ∧ IsComment line := by
  constructor
  · intro hexists
    obtain ⟨o, text, fault, hfault, rfl⟩ := hexists
    cases h with
    | malformed split wellFormed h =>
      have hmalformed := h.malformed
      cases h with
      | comment _ hline _ => exact ⟨_, _, ⟨_, _, split, rfl, wellFormed, hmalformed⟩, hline.isComment⟩
    | missing => cases hfault
  · intro hexists
    obtain ⟨k, line, hfirst, hcomment⟩ := hexists
    cases h with
    | complete wellFormed _ _ => exact absurd wellFormed hfirst.not_wellFormed
    | missing wellFormed _ => exact absurd wellFormed hfirst.not_wellFormed
    | malformed split wellFormed h =>
      obtain ⟨before, after, hls, rfl, hbefore, hmalformed⟩ := hfirst
      obtain ⟨rfl, rfl⟩ :=
        eq_of_first (hls.symm.trans split) hmalformed hbefore h.malformed wellFormed
      cases h with
      | clause hline _ => exact absurd hcomment (not_isComment_of_isClauseLine hline)
      | comment _ _ h => exact ⟨_, _, _, h, rfl⟩

theorem eq_missing_iff (h : Outcome source ls result) (o : Operand) :
    result = .error ⟨.missing o, source, none, none⟩ ↔
      WellFormed ls ∧ IsFirst (fun p => ¬ Annotated ls p) Operand.all o := by
  constructor
  · rintro rfl
    cases h with
    | missing wellFormed first => exact ⟨wellFormed, first⟩
    | malformed _ _ h =>
      cases h with
      | comment _ _ h => cases h
  · intro hboth
    obtain ⟨hwellFormed, hfirst⟩ := hboth
    cases h with
    | complete _ annotated _ =>
      obtain ⟨_, _, -, hmissing, -⟩ := hfirst
      exact absurd (annotated o) hmissing
    | malformed split _ h => exact absurd h.malformed (hwellFormed _ _ _ split)
    | missing _ first => rw [first.unique hfirst]

/-- There is no other kind of error. -/
theorem error_cases {e : ProblemError} (h : Outcome source ls (.error e)) :
    (∃ (k : ℕ) (line : List Char) (fault : ProblemFault),
        ClauseFault line fault ∧ e = ⟨fault, source, some k, some line⟩) ∨
      (∃ o text fault, ListFault o text fault ∧ e = ⟨fault, source, none, none⟩) ∨
      ∃ o, e = ⟨.missing o, source, none, none⟩ := by
  cases h with
  | malformed _ _ h =>
    cases h with
    | clause _ h => exact .inl ⟨_, _, _, h, rfl⟩
    | comment _ _ h => exact .inr (.inl ⟨_, _, _, h, rfl⟩)
  | missing => exact .inr (.inr ⟨_, rfl⟩)

end Outcome

/-- A problem is read if no line is malformed and each operand is annotated, and it is complete
then. A malformed clause line that is the first is reported with its number and the line, a
malformed comment without them; if no line is malformed, the first operand that is not annotated
is reported. Nothing else is reported, and the tokens that are read as literals are integers. -/
theorem parse_outcome (source : Option String) (text : List Char) :
    let ls := (lines text).map strip
    let result := (parse source text).result
    (∀ p, result = .ok p → Complete p) ∧
      ((∃ p, result = .ok p) ↔ WellFormed ls ∧ ∀ o, Annotated ls o) ∧
      (∀ (k : ℕ) (line : List Char),
        (∃ fault, ClauseFault line fault ∧ result = .error ⟨fault, source, some k, some line⟩) ↔
          FirstMalformed ls k line ∧ isClauseLine line = true) ∧
      ((∃ o text fault, ListFault o text fault ∧ result = .error ⟨fault, source, none, none⟩) ↔
        ∃ k line, FirstMalformed ls k line ∧ IsComment line) ∧
      (∀ o, result = .error ⟨.missing o, source, none, none⟩ ↔
        WellFormed ls ∧ IsFirst (fun p => ¬ Annotated ls p) Operand.all o) ∧
      (∀ e, result = .error e →
        (∃ (k : ℕ) (line : List Char) (fault : ProblemFault),
            ClauseFault line fault ∧ e = ⟨fault, source, some k, some line⟩) ∨
          (∃ o text fault, ListFault o text fault ∧ e = ⟨fault, source, none, none⟩) ∨
          ∃ o, e = ⟨.missing o, source, none, none⟩) ∧
      ∀ line ∈ ls, ∀ lits, literalsOf line = .ok lits →
        (words line).dropLast.mapM parseInteger = .ok (lits.map Literal.toInt) := by
  have h := outcome_parse source text
  exact ⟨fun p hp => (hp ▸ h).complete_of_ok, h.exists_ok_iff, h.exists_clauseFault_iff,
    h.exists_listFault_iff, h.eq_missing_iff, fun e he => (he ▸ h).error_cases,
    fun _ _ _ hlits => mapM_parseInteger_of_literalsOf hlits⟩

end ProblemText

end FactorSearch
