import FactorSearch.Proofs.AnnotationShape
import FactorSearch.Proofs.Encoding

/-!
The comments of a multiplication and what is read from them. The comment of an operand
annotates this operand only, with the variables that it was written from; the title,
which has a colon too, annotates none.
-/

namespace FactorSearch

open Text

namespace ProblemText

/-- The words of an annotation before the colon. -/
def caption (o : Operand) : List Char := (" Variables for " ++ o.label ++ " [msb,...,lsb]").toList

theorem labelAfterBlanks_caption (operand o : Operand) :
    labelAfterBlanks operand.label.toList (caption o) = decide (operand = o) := by
  cases operand <;> cases o <;> decide

theorem colon_notMem_caption (o : Operand) : ':' ∉ caption o := by
  cases o <;> decide

/-- The items of a list of variables. -/
def listText (vars : List Int) : List Char := (", ".intercalate (vars.map toString)).toList

theorem toList_operand (o : Operand) (vars : List Int) :
    (Multiplier.annotation o vars).toList =
      'c' :: caption o ++ ':' :: ' ' :: '[' :: (listText vars ++ [']']) := by
  unfold Multiplier.annotation Multiplier.bitList caption listText
  have hprefix : "c Variables for ".toList = 'c' :: " Variables for ".toList := rfl
  have hsuffix : " [msb,...,lsb]: ".toList = " [msb,...,lsb]".toList ++ [':', ' '] := rfl
  have hopen : "[".toList = ['['] := rfl
  have hclose : "]".toList = [']'] := rfl
  simp only [String.toList_append, hprefix, hsuffix, hopen, hclose, List.append_assoc,
    List.cons_append, List.nil_append]

theorem isDigit_of_mem_toString {x : Int} (hx : 0 < x) {c : Char} (h : c ∈ (toString x).toList) :
    c.isDigit = true := by
  rw [toList_toString, if_pos (by omega)] at h
  exact isDigit_of_mem_repr h

section Lists

variable {vars : List Int}

theorem forall_mem_listText {P : Char → Prop} (hpos : ∀ x ∈ vars, 0 < x)
    (hseparator : ∀ c ∈ [',', ' '], P c) (hdigit : ∀ c, c.isDigit = true → P c) :
    ∀ c ∈ listText vars, P c := by
  unfold listText
  rw [String.toList_intercalate]
  apply forall_mem_intercalate hseparator
  intro w hw c hc
  rw [List.map_map] at hw
  obtain ⟨x, hx, rfl⟩ := List.mem_map.1 hw
  exact hdigit c (isDigit_of_mem_toString (hpos x hx) hc)

theorem listText_cons (x : Int) (rest : List Int) :
    listText (x :: rest) =
      [','].intercalate ((toString x).toList :: rest.map (fun y => ' ' :: (toString y).toList)) := by
  unfold listText
  rw [String.toList_intercalate, List.map_cons, List.map_cons]
  apply (intercalate_pair ',' ' ' _ _).trans
  rw [List.map_map, List.map_map]
  rfl

theorem listText_ne_nil (hne : vars ≠ []) : listText vars ≠ [] := by
  obtain ⟨x, rest, rfl⟩ := List.exists_cons_of_ne_nil hne
  obtain ⟨c, cs, hc⟩ := List.exists_cons_of_ne_nil (toList_toString_ne_nil x)
  rw [listText_cons, hc, List.intercalate_cons_cons_left]
  exact List.cons_ne_nil _ _

/-- The brackets of an annotation hold the items of the list. -/
theorem bracketed?_listText (hne : vars ≠ []) (hpos : ∀ x ∈ vars, 0 < x) :
    bracketed? (' ' :: '[' :: (listText vars ++ [']'])) = some (listText vars) := by
  have hchars : ∀ c ∈ listText vars, isListChar c = true := by
    apply forall_mem_listText hpos (List.all_eq_true.1 (by decide))
    intro c hc
    unfold isListChar
    rw [hc]
    rfl
  exact bracketed?_eq_some_iff.2 ⟨[' '], [], rfl, List.forall_mem_singleton.2 rfl,
    List.forall_mem_nil _, listText_ne_nil hne, hchars⟩

/-- The items of a list are read as its variables. -/
theorem parseList_listText (operand : Operand) (hne : vars ≠ []) (hpos : ∀ x ∈ vars, 0 < x)
    (hwritable : ∀ x ∈ vars, x.natAbs < 10 ^ digitLimit) :
    parseList operand (listText vars) = .ok vars := by
  obtain ⟨x, rest, rfl⟩ := List.exists_cons_of_ne_nil hne
  have hdigits : ∀ y ∈ x :: rest, ∀ c ∈ (toString y).toList, c.isDigit = true :=
    fun y hy c hc => isDigit_of_mem_toString (hpos y hy) hc
  have hitem : ∀ y ∈ x :: rest, parseInteger (strip (toString y).toList) = .ok y := by
    intro y hy
    rw [strip_eq_self (fun c hc => isBlank_of_isDigit (hdigits y hy c hc)),
      parseInteger_toString (hwritable y hy)]
  have hcomma : ∀ y ∈ x :: rest, ∀ c ∈ (toString y).toList, decide (c = ',') = false := by
    intro y hy c hc
    apply decide_eq_false
    intro heq
    subst heq
    exact absurd (hdigits y hy _ hc) (by decide)
  have hfields : fields (fun c => decide (c = ',')) (listText (x :: rest)) =
      (toString x).toList :: rest.map (fun y => ' ' :: (toString y).toList) := by
    rw [listText_cons, fields_intercalate (List.cons_ne_nil _ _) ?_ (by decide)]
    rw [List.forall_mem_cons]
    refine ⟨hcomma x List.mem_cons_self, fun w hw => ?_⟩
    obtain ⟨y, hy, rfl⟩ := List.mem_map.1 hw
    rw [List.forall_mem_cons]
    exact ⟨by decide, hcomma y (List.mem_cons_of_mem _ hy)⟩
  have hrest : (rest.map (fun y => ' ' :: (toString y).toList)).mapM
      (fun item => parseInteger (strip item)) = .ok rest := by
    apply mapM_map_ok
    intro y hy
    rw [strip_cons_of_blank (by decide), hitem y (List.mem_cons_of_mem _ hy)]
  have hall : (x :: rest).all (fun y => decide (0 < y)) = true := by
    rw [List.all_eq_true]
    exact fun y hy => decide_eq_true (hpos y hy)
  unfold parseList
  rw [hfields, List.mapM_cons, hitem x List.mem_cons_self, hrest]
  exact if_pos hall

theorem annotation?_operand (operand o : Operand) (hne : vars ≠ []) (hpos : ∀ x ∈ vars, 0 < x) :
    annotation? operand (Multiplier.annotation o vars).toList =
      if operand = o then some (listText vars) else none := by
  rw [toList_operand, annotation?_append operand (colon_notMem_caption o), labelAfterBlanks_caption,
    bracketed?_listText hne hpos]
  simp only [decide_eq_true_eq]

end Lists

section Title

/-- The words of a title before the colon. -/
def titleWords (product : ℕ) : List Char :=
  " Circuit for product = ".toList ++ (toString (product : Int)).toList ++ " [binary".toList

theorem toList_title (product width : ℕ) :
    (Multiplication.title product width).toList =
      'c' :: titleWords product ++ ':' :: ' ' :: ((Multiplier.binary width product).toList ++ [']']) := by
  have hprefix : "c Circuit for product = ".toList = 'c' :: " Circuit for product = ".toList := rfl
  have hmiddle : " [binary: ".toList = " [binary".toList ++ [':', ' '] := rfl
  have hclose : "]".toList = [']'] := rfl
  unfold Multiplication.title titleWords
  simp only [String.toList_append, hprefix, hmiddle, hclose, List.append_assoc, List.cons_append,
    List.nil_append]

theorem colon_notMem_titleWords (product : ℕ) : ':' ∉ titleWords product := by
  unfold titleWords
  rw [List.mem_append, List.mem_append]
  rintro ((hstart | hnumber) | hend)
  · exact absurd hstart (by decide)
  · exact absurd (numeral_of_mem_toString hnumber) (by decide)
  · exact absurd hend (by decide)

theorem binary_of_mem {width n : ℕ} {c : Char} (h : c ∈ (Multiplier.binary width n).toList) :
    c = '1' ∨ c = '0' := by
  unfold Multiplier.binary at h
  rw [String.toList_ofList] at h
  obtain ⟨k, -, rfl⟩ := List.mem_map.1 h
  split
  · exact Or.inl rfl
  · exact Or.inr rfl

/-- The title has no brackets after its colon. -/
theorem bracketed?_binary (width n : ℕ) :
    bracketed? (' ' :: ((Multiplier.binary width n).toList ++ [']'])) = none := by
  unfold bracketed?
  rw [List.dropWhile_cons]
  cases hbits : (Multiplier.binary width n).toList with
  | nil => rfl
  | cons c rest =>
    rcases binary_of_mem (hbits ▸ List.mem_cons_self : c ∈ _) with rfl | rfl
    · rfl
    · rfl

theorem annotation?_title (operand : Operand) (product width : ℕ) :
    annotation? operand (Multiplication.title product width).toList = none := by
  rw [toList_title, annotation?_append operand (colon_notMem_titleWords product), bracketed?_binary]
  exact ite_self _

end Title

section Annotate

variable {line : List Char} {d : Draft}

theorem mem_all (o : Operand) : o ∈ Operand.all := by
  cases o <;> decide

theorem nodup_all : Operand.all.Nodup := by decide

theorem bits?_annotations_cons (d : Draft) (o p : Operand) (vars : List Int) :
    ({ d with annotations := (o, vars) :: d.annotations } : Draft).bits? p =
      if o = p then some vars else d.bits? p := by
  unfold Draft.bits?
  rw [List.find?_cons]
  by_cases h : o = p <;> simp [h]

/-- A comment that annotates none but operands with known bits changes nothing. -/
theorem annotate_of_settled {ops : List Operand}
    (h : ∀ operand ∈ ops, (d.bits? operand).isSome = true ∨ annotation? operand line = none) :
    annotate d line ops = .ok d := by
  induction ops with
  | nil => rfl
  | cons operand rest ih =>
    rw [List.forall_mem_cons] at h
    obtain ⟨hknown | hnone, hrest⟩ := h
    · rw [annotate, if_pos hknown, ih hrest]
    · rw [annotate, hnone, ih hrest]
      exact ite_self _

theorem annotate_of_none {ops : List Operand} (h : ∀ operand ∈ ops, annotation? operand line = none) :
    annotate d line ops = .ok d :=
  annotate_of_settled fun operand hoperand => Or.inr (h operand hoperand)

theorem annotate_of_some {o : Operand} {text : List Char} {vars : List Int}
    (hline : ∀ operand, annotation? operand line = if operand = o then some text else none)
    (hparse : parseList o text = .ok vars) {ops : List Operand} (hnodup : ops.Nodup)
    (hmem : o ∈ ops) (hnew : d.bits? o = none) :
    annotate d line ops = .ok { d with annotations := (o, vars) :: d.annotations } := by
  induction ops with
  | nil => exact absurd hmem List.not_mem_nil
  | cons operand rest ih =>
    rw [List.nodup_cons] at hnodup
    obtain ⟨hother, hnodup⟩ := hnodup
    by_cases ho : operand = o
    · subst ho
      have hrest : ∀ p ∈ rest, annotation? p line = none := by
        intro p hp
        rw [hline, if_neg]
        intro heq
        subst heq
        exact hother hp
      rw [annotate, hnew, hline, if_pos rfl]
      simp only [hparse, annotate_of_none hrest]
      rfl
    · have hlater : o ∈ rest := by
        rcases List.mem_cons.1 hmem with rfl | hlater
        · exact absurd rfl ho
        · exact hlater
      rw [annotate, hline, if_neg ho, ih hnodup hlater]
      exact ite_self _

end Annotate

/-- Comment lines keep all their characters. -/
theorem strip_comment (cs : List Char) : strip ('c' :: (cs ++ [']'])) = 'c' :: (cs ++ [']']) := by
  apply strip_eq
  · intro c hc
    cases hc
    decide
  · rw [← List.cons_append, List.getLast?_concat]
    intro c hc
    cases hc
    decide

theorem readLine_comment {rest : List Char} {d e : Draft} (source : Option String) (lineNo : ℕ)
    (h : annotate d ('c' :: (rest ++ [']'])) Operand.all = .ok e) :
    readLine source lineNo (strip ('c' :: (rest ++ [']']))) d = .ok e := by
  rw [strip_comment, readLine, h]

theorem readLine_title (product width : ℕ) (source : Option String) (lineNo : ℕ) (d : Draft) :
    readLine source lineNo (strip (Multiplication.title product width).toList) d = .ok d := by
  have hannotate : annotate d (Multiplication.title product width).toList Operand.all = .ok d :=
    annotate_of_none (fun operand _ => annotation?_title operand product width)
  have htext : (Multiplication.title product width).toList =
      'c' :: (titleWords product ++ ':' :: ' ' :: (Multiplier.binary width product).toList ++ [']']) := by
    rw [toList_title]
    simp only [List.append_assoc, List.cons_append]
  rw [htext] at hannotate ⊢
  exact readLine_comment source lineNo hannotate

theorem readLine_annotation {o : Operand} {vars : List Int} {d e : Draft} (source : Option String)
    (lineNo : ℕ) (h : annotate d (Multiplier.annotation o vars).toList Operand.all = .ok e) :
    readLine source lineNo (strip (Multiplier.annotation o vars).toList) d = .ok e := by
  have htext : (Multiplier.annotation o vars).toList =
      'c' :: (caption o ++ ':' :: ' ' :: '[' :: listText vars ++ [']']) := by
    rw [toList_operand]
    simp only [List.append_assoc, List.cons_append]
  rw [htext] at h ⊢
  exact readLine_comment source lineNo h

theorem readLine_operand (o : Operand) {vars : List Int} (hne : vars ≠ [])
    (hpos : ∀ x ∈ vars, 0 < x) (hwritable : ∀ x ∈ vars, x.natAbs < 10 ^ digitLimit)
    (source : Option String) (lineNo : ℕ) {d : Draft} (hnew : d.bits? o = none) :
    readLine source lineNo (strip (Multiplier.annotation o vars).toList) d =
      .ok { d with annotations := (o, vars) :: d.annotations } := by
  have hannotate := annotate_of_some
    (fun operand => annotation?_operand operand o hne hpos)
    (parseList_listText o hne hpos hwritable) nodup_all (mem_all o) hnew
  exact readLine_annotation source lineNo hannotate

theorem unbroken_title (product width : ℕ) :
    Unbroken (Multiplication.title product width).toList := by
  have hnumber : Unbroken (toString (product : Int)).toList :=
    fun c hc => isLineBreak_of_numeral (numeral_of_mem_toString hc)
  have hwords : Unbroken (titleWords product) := by
    unfold titleWords
    exact unbroken_append (unbroken_append (by decide) hnumber) (by decide)
  have hbits : Unbroken (Multiplier.binary width product).toList := by
    intro c hc
    rcases binary_of_mem hc with rfl | rfl <;> decide
  have hstart : Unbroken ['c'] := by decide
  have hcolon : Unbroken [':', ' '] := by decide
  have hclose : Unbroken [']'] := by decide
  rw [toList_title]
  exact unbroken_append (unbroken_append hstart hwords)
    (unbroken_append hcolon (unbroken_append hbits hclose))

theorem unbroken_operand (o : Operand) {vars : List Int} (hpos : ∀ x ∈ vars, 0 < x) :
    Unbroken (Multiplier.annotation o vars).toList := by
  have hcaption : Unbroken (caption o) := by
    cases o <;> decide
  have hlist : Unbroken (listText vars) :=
    forall_mem_listText hpos (by decide : Unbroken [',', ' '])
      (fun c hc => isLineBreak_of_numeral (Or.inl hc))
  have hstart : Unbroken ['c'] := by decide
  have hopen : Unbroken [':', ' ', '['] := by decide
  have hclose : Unbroken [']'] := by decide
  rw [toList_operand]
  exact unbroken_append (unbroken_append hstart hcaption)
    (unbroken_append hopen (unbroken_append hlist hclose))

end ProblemText

end FactorSearch
