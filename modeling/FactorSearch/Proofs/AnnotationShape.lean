import FactorSearch.ProblemText
import FactorSearch.Proofs.Lines
import Mathlib.Data.List.TakeWhile

/-!
The shape of an annotation: the letter of a comment, blanks, words, the label of the operand and
anything else up to the first colon, then a list in brackets and nothing but blanks. The first
colon and the first bracket are where the line is cut, so it is read as an annotation of an
operand exactly if it has the shape, and the text in the brackets is then determined.
-/

namespace FactorSearch

open Text

namespace ProblemText

/-- At least one blank, at least one letter or space, and then the label. -/
def Names (label named : List Char) : Prop :=
  ∃ blanks rest, named = blanks ++ rest ∧ blanks ≠ [] ∧ (∀ c ∈ blanks, isBlank c = true) ∧
    ∃ words tail, rest = words ++ tail ∧ words ≠ [] ∧ (∀ c ∈ words, isLabelChar c = true) ∧
      label <+: tail

/-- A list in brackets, with nothing but blanks around it. -/
def Brackets (cs text : List Char) : Prop :=
  ∃ before after, cs = before ++ '[' :: (text ++ ']' :: after) ∧
    (∀ c ∈ before, isBlank c = true) ∧ (∀ c ∈ after, isBlank c = true) ∧
    text ≠ [] ∧ ∀ c ∈ text, isListChar c = true

/-- The line annotates the operand with the list of the text. -/
def IsAnnotation (operand : Operand) (line text : List Char) : Prop :=
  ∃ named rest, line = 'c' :: named ++ ':' :: rest ∧ ':' ∉ named ∧
    Names operand.label.toList named ∧ Brackets rest text

/-- A comment line up to its first colon and what follows it. -/
theorem annotation?_append (operand : Operand) {named : List Char} (h : ':' ∉ named)
    (rest : List Char) :
    annotation? operand ('c' :: named ++ ':' :: rest) =
      if labelAfterBlanks operand.label.toList named then bracketed? rest else none := by
  have hall : ∀ c ∈ 'c' :: named, decide (c ≠ ':') = true := by
    rw [List.forall_mem_cons]
    refine ⟨by decide, fun c hc => decide_eq_true ?_⟩
    intro heq
    subst heq
    exact h hc
  unfold annotation?
  rw [List.takeWhile_append_of_pos hall, List.dropWhile_append_of_pos hall]
  simp

/-- Characters of a class, at least one, and then what may come next. -/
theorem eq_true_iff_run {p : Char → Bool} {f g : List Char → Bool} (hnil : f [] = false)
    (hcons : ∀ c rest, f (c :: rest) = (p c && (g rest || f rest))) (cs : List Char) :
    f cs = true ↔
      ∃ run rest, cs = run ++ rest ∧ run ≠ [] ∧ (∀ c ∈ run, p c = true) ∧ g rest = true := by
  induction cs with
  | nil =>
    rw [hnil]
    refine iff_of_false Bool.false_ne_true ?_
    intro hexists
    obtain ⟨run, rest, heq, hne, -⟩ := hexists
    exact hne (List.append_eq_nil_iff.1 heq.symm).1
  | cons c cs ih =>
    rw [hcons, Bool.and_eq_true, Bool.or_eq_true, ih]
    constructor
    · intro hboth
      obtain ⟨hc, hnext | ⟨run, rest, rfl, -, hrun, hnext⟩⟩ := hboth
      · exact ⟨[c], cs, rfl, List.cons_ne_nil c [], List.forall_mem_singleton.2 hc, hnext⟩
      · exact ⟨c :: run, rest, rfl, List.cons_ne_nil c run, List.forall_mem_cons.2 ⟨hc, hrun⟩, hnext⟩
    · intro hexists
      obtain ⟨run, rest, heq, hne, hrun, hnext⟩ := hexists
      obtain ⟨d, run, rfl⟩ := List.exists_cons_of_ne_nil hne
      cases heq
      rw [List.forall_mem_cons] at hrun
      refine ⟨hrun.1, ?_⟩
      cases run with
      | nil => exact .inl hnext
      | cons e run => exact .inr ⟨e :: run, rest, rfl, List.cons_ne_nil e run, hrun.2, hnext⟩

theorem labelAfterBlanks_iff {label named : List Char} :
    labelAfterBlanks label named = true ↔ Names label named := by
  rw [eq_true_iff_run (p := isBlank) (g := labelAfterWords label) rfl (fun _ _ => rfl)]
  unfold Names
  simp only [eq_true_iff_run (p := isLabelChar) (g := fun rest => label.isPrefixOf rest)
    (f := labelAfterWords label) rfl (fun _ _ => rfl), List.isPrefixOf_iff_prefix]

theorem bracketed?_eq_some_iff {cs text : List Char} :
    bracketed? cs = some text ↔ Brackets cs text := by
  constructor
  · intro h
    have hcs := List.takeWhile_append_dropWhile (p := isBlank) (l := cs)
    unfold bracketed? at h
    split at h
    · rename_i rest hopen
      have hrest := List.takeWhile_append_dropWhile (p := isListChar) (l := rest)
      simp only at h
      split at h
      · rename_i after hclose
        split at h
        · rename_i hboth
          cases h
          rw [Bool.and_eq_true, Bool.not_eq_true', List.isEmpty_eq_false_iff, List.all_eq_true] at hboth
          refine ⟨cs.takeWhile isBlank, after, ?_, fun c hc => List.mem_takeWhile_imp hc, hboth.2,
            hboth.1, fun c hc => List.mem_takeWhile_imp hc⟩
          rw [← hclose, hrest, ← hopen, hcs]
        · cases h
      · cases h
    · cases h
  · intro h
    obtain ⟨before, after, rfl, hbefore, hafter, hne, htext⟩ := h
    have hopen : (before ++ '[' :: (text ++ ']' :: after)).dropWhile isBlank =
        '[' :: (text ++ ']' :: after) := by
      rw [List.dropWhile_append_of_pos hbefore]
      rfl
    have htake : (text ++ ']' :: after).takeWhile isListChar = text := by
      rw [List.takeWhile_append_of_pos htext]
      exact List.append_nil _
    have hdrop : (text ++ ']' :: after).dropWhile isListChar = ']' :: after := by
      rw [List.dropWhile_append_of_pos htext]
      rfl
    have hall : after.all isBlank = true := List.all_eq_true.2 hafter
    unfold bracketed?
    rw [hopen]
    simp [htake, hdrop, hne, hall]

/-- A line that is read as an annotation has a colon, and the first one cuts it. -/
theorem exists_colon_of_annotation? {operand : Operand} {line text : List Char}
    (h : annotation? operand line = some text) :
    ∃ named rest, line = 'c' :: named ++ ':' :: rest ∧ ':' ∉ named := by
  have hline := List.takeWhile_append_dropWhile (p := fun c => decide (c ≠ ':')) (l := line)
  unfold annotation? at h
  simp only at h
  split at h
  · rename_i named rest htitle hrest
    refine ⟨named, rest, ?_, fun hmem => ?_⟩
    · rw [← htitle, ← hrest, hline]
    · have hcolon : ':' ∈ line.takeWhile (fun c => decide (c ≠ ':')) :=
        htitle ▸ List.mem_cons_of_mem 'c' hmem
      exact absurd (List.mem_takeWhile_imp hcolon) (by decide)
  · cases h

theorem annotation?_eq_some_iff {operand : Operand} {line text : List Char} :
    annotation? operand line = some text ↔ IsAnnotation operand line text := by
  constructor
  · intro h
    obtain ⟨named, rest, rfl, hcolon⟩ := exists_colon_of_annotation? h
    rw [annotation?_append operand hcolon] at h
    split at h
    · rename_i hnames
      exact ⟨named, rest, rfl, hcolon, labelAfterBlanks_iff.1 hnames, bracketed?_eq_some_iff.1 h⟩
    · cases h
  · intro h
    obtain ⟨named, rest, rfl, hcolon, hnames, hbrackets⟩ := h
    rw [annotation?_append operand hcolon, if_pos (labelAfterBlanks_iff.2 hnames)]
    exact bracketed?_eq_some_iff.2 hbrackets

/-- A line that annotates no operand is not read as an annotation. -/
theorem annotation?_eq_none_iff {operand : Operand} {line : List Char} :
    annotation? operand line = none ↔ ∀ text, ¬ IsAnnotation operand line text := by
  simp only [← annotation?_eq_some_iff, Option.eq_none_iff_forall_ne_some]

end ProblemText

end FactorSearch
