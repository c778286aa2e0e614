import FactorSearch.Proofs.Numerals
import Mathlib.Data.List.Basic

/-!
Text that is put together from pieces is cut into the same pieces again: fields between
separators, words between blanks, lines between breaks. Stripping changes nothing about
a text that begins and ends with other characters than blanks.
-/

namespace FactorSearch.Text

/-- A list is mapped without failure exactly if each of its items is. -/
theorem mapM_eq_ok_iff {α β ε : Type} {f : α → Except ε β} {xs : List α} {ys : List β} :
    xs.mapM f = .ok ys ↔ xs.map f = ys.map .ok := by
  induction xs generalizing ys with
  | nil =>
    rw [List.mapM_nil, List.map_nil, List.nil_eq, List.map_eq_nil_iff]
    exact ⟨fun h => (Except.ok.inj h).symm, fun h => h ▸ rfl⟩
  | cons x rest ih =>
    rw [List.mapM_cons, List.map_cons, @eq_comm _ (f x :: _), List.map_eq_cons_iff]
    constructor
    · intro h
      cases hx : f x with
      | error e =>
        rw [hx] at h
        cases h
      | ok y =>
        cases hrest : rest.mapM f with
        | error e =>
          rw [hx, hrest] at h
          cases h
        | ok ys' =>
          rw [hx, hrest] at h
          cases h
          exact ⟨y, ys', rfl, rfl, (ih.1 hrest).symm⟩
    · intro h
      obtain ⟨y, ys', rfl, hx, hrest⟩ := h
      rw [← hx, ih.2 hrest.symm]
      rfl

/-- If mapping a list fails, it does so at the first item that fails. -/
theorem exists_of_mapM_eq_error {α β ε : Type} {f : α → Except ε β} {xs : List α} {e : ε}
    (h : xs.mapM f = .error e) :
    ∃ before x after, xs = before ++ x :: after ∧ f x = .error e ∧
      ∀ y ∈ before, ∃ z, f y = .ok z := by
  induction xs with
  | nil => cases h
  | cons x rest ih =>
    rw [List.mapM_cons] at h
    cases hx : f x with
    | error e' =>
      rw [hx] at h
      cases h
      exact ⟨[], x, rest, rfl, hx, List.forall_mem_nil _⟩
    | ok y =>
      cases hrest : rest.mapM f with
      | error e' =>
        rw [hx, hrest] at h
        cases h
        obtain ⟨before, z, after, rfl, hz, hbefore⟩ := ih hrest
        exact ⟨x :: before, z, after, rfl, hz, List.forall_mem_cons.2 ⟨⟨y, hx⟩, hbefore⟩⟩
      | ok ys =>
        rw [hx, hrest] at h
        cases h

/-- What maps one function maps another that agrees with it. -/
theorem mapM_map_of_mapM {α β γ δ ε : Type} {f : α → Except δ β} {g : α → Except ε γ} {k : β → γ}
    (hfg : ∀ x y, f x = .ok y → g x = .ok (k y)) {xs : List α} {ys : List β}
    (h : xs.mapM f = .ok ys) : xs.mapM g = .ok (ys.map k) := by
  rw [mapM_eq_ok_iff] at h ⊢
  induction xs generalizing ys with
  | nil =>
    rw [List.map_nil, List.nil_eq, List.map_eq_nil_iff] at h
    rw [h]
    rfl
  | cons x rest ih =>
    rw [List.map_cons, eq_comm, List.map_eq_cons_iff] at h
    obtain ⟨y, ys', rfl, hy, hrest⟩ := h
    rw [List.map_cons, List.map_cons, List.map_cons, hfg x y hy.symm, ih hrest.symm]

theorem mapM_map_ok {α β ε : Type} {f : α → β} {g : β → Except ε α} {xs : List α}
    (h : ∀ x ∈ xs, g (f x) = .ok x) : (xs.map f).mapM g = .ok xs := by
  rw [mapM_eq_ok_iff, List.map_map]
  exact List.map_congr_left h

theorem forall_mem_intercalate {P : Char → Prop} {separator : List Char} {ws : List (List Char)}
    (hseparator : ∀ c ∈ separator, P c) (hws : ∀ w ∈ ws, ∀ c ∈ w, P c) :
    ∀ c ∈ separator.intercalate ws, P c := by
  induction ws with
  | nil => exact List.forall_mem_nil _
  | cons w ws ih =>
    rw [List.forall_mem_cons] at hws
    cases ws with
    | nil =>
      rw [List.intercalate_singleton]
      exact hws.1
    | cons u us =>
      rw [List.intercalate_cons_cons, List.forall_mem_append, List.forall_mem_append]
      exact ⟨⟨hws.1, hseparator⟩, ih hws.2⟩

theorem subset_intercalate (separator : List Char) {ws : List (List Char)} {w : List Char}
    (hw : w ∈ ws) : w ⊆ separator.intercalate ws := by
  induction ws with
  | nil => exact absurd hw List.not_mem_nil
  | cons u us ih =>
    cases us with
    | nil =>
      rw [List.mem_singleton.1 hw, List.intercalate_singleton]
      exact List.Subset.refl u
    | cons v vs =>
      rw [List.intercalate_cons_cons]
      rcases List.mem_cons.1 hw with rfl | hw
      · exact fun c hc => List.mem_append_left _ (List.mem_append_left _ hc)
      · exact fun c hc => List.mem_append_right _ (ih hw hc)

theorem suffix_intercalate (separator : List Char) (ws : List (List Char)) (w : List Char) :
    w <:+ separator.intercalate (ws ++ [w]) := by
  induction ws with
  | nil =>
    simpa only [List.nil_append, List.intercalate_singleton] using List.suffix_refl w
  | cons u us ih =>
    obtain ⟨v, vs, hv⟩ := List.exists_cons_of_ne_nil
      (List.append_ne_nil_of_right_ne_nil us (List.cons_ne_nil w []))
    rw [List.cons_append, hv, List.intercalate_cons_cons, ← hv]
    exact ih.trans (List.suffix_append _ _)

/-- A separator of two characters is one, and a character before each later piece. -/
theorem intercalate_pair (s b : Char) (w : List Char) (ws : List (List Char)) :
    [s, b].intercalate (w :: ws) = [s].intercalate (w :: ws.map (b :: ·)) := by
  induction ws generalizing w with
  | nil => rfl
  | cons u us ih =>
    rw [List.intercalate_cons_cons, ih, List.map_cons, List.intercalate_cons_cons,
      List.intercalate_cons_cons_left, List.append_assoc, List.append_assoc]
    rfl

section Fields

variable {separates : Char → Bool} {s : Char}

theorem fieldsFrom_append {cs : List Char} (h : ∀ c ∈ cs, separates c = false)
    (field rest : List Char) :
    fieldsFrom separates field (cs ++ rest) = fieldsFrom separates (cs.reverse ++ field) rest := by
  induction cs generalizing field with
  | nil => rfl
  | cons c cs ih =>
    rw [List.forall_mem_cons] at h
    rw [List.cons_append, fieldsFrom, h.1, if_neg Bool.false_ne_true, ih h.2, List.reverse_cons,
      List.append_assoc]
    rfl

/-- No field contains a separator. -/
theorem separates_of_mem_fieldsFrom {field cs w : List Char} (hw : w ∈ fieldsFrom separates field cs)
    (hfield : ∀ c ∈ field, separates c = false) : ∀ c ∈ w, separates c = false := by
  induction cs generalizing field with
  | nil =>
    rw [fieldsFrom, List.mem_singleton] at hw
    subst hw
    exact fun c hc => hfield c (List.mem_reverse.1 hc)
  | cons d rest ih =>
    rw [fieldsFrom] at hw
    split at hw
    · rcases List.mem_cons.1 hw with rfl | hw
      · exact fun c hc => hfield c (List.mem_reverse.1 hc)
      · exact ih hw (List.forall_mem_nil _)
    · rename_i hd
      exact ih hw (List.forall_mem_cons.2 ⟨by simpa using hd, hfield⟩)

theorem fields_eq_singleton {cs : List Char} (h : ∀ c ∈ cs, separates c = false) :
    fields separates cs = [cs] := by
  have hall := fieldsFrom_append h [] []
  rw [List.append_nil, List.append_nil, fieldsFrom, List.reverse_reverse] at hall
  exact hall

theorem fields_append_cons {cs : List Char} (h : ∀ c ∈ cs, separates c = false)
    (hs : separates s = true) (rest : List Char) :
    fields separates (cs ++ s :: rest) = cs :: fields separates rest := by
  unfold fields
  rw [fieldsFrom_append h, fieldsFrom, hs, List.append_nil, List.reverse_reverse]
  rfl

/-- Cutting undoes joining. -/
theorem fields_intercalate {ws : List (List Char)} (hne : ws ≠ [])
    (h : ∀ w ∈ ws, ∀ c ∈ w, separates c = false) (hs : separates s = true) :
    fields separates ([s].intercalate ws) = ws := by
  induction ws with
  | nil => exact absurd rfl hne
  | cons w ws ih =>
    rw [List.forall_mem_cons] at h
    cases ws with
    | nil => rw [List.intercalate_singleton, fields_eq_singleton h.1]
    | cons u us =>
      rw [List.intercalate_cons_cons, List.append_assoc, List.singleton_append,
        fields_append_cons h.1 hs, ih (List.cons_ne_nil u us) h.2]

end Fields

theorem words_intercalate {ws : List (List Char)} (hne : ws ≠ [])
    (h : ∀ w ∈ ws, w ≠ [] ∧ ∀ c ∈ w, isBlank c = false) :
    words ([' '].intercalate ws) = ws := by
  unfold words
  rw [fields_intercalate hne (fun w hw => (h w hw).2) (by decide), List.filter_eq_self]
  intro w hw
  simpa using (h w hw).1

section Strip

variable {cs : List Char}

theorem stripBy_eq {drop : Char → Bool} (hhead : ∀ c ∈ cs.head?, drop c = false)
    (hlast : ∀ c ∈ cs.getLast?, drop c = false) : stripBy drop cs = cs := by
  have hkeep : ∀ ds : List Char, (∀ c ∈ ds.head?, drop c = false) → ds.dropWhile drop = ds := by
    intro ds hds
    cases ds with
    | nil => rfl
    | cons d ds => rw [List.dropWhile_cons, hds d rfl]; rfl
  unfold stripBy
  rw [hkeep cs hhead, hkeep cs.reverse (by rwa [List.head?_reverse]), List.reverse_reverse]

theorem strip_eq (hhead : ∀ c ∈ cs.head?, isBlank c = false)
    (hlast : ∀ c ∈ cs.getLast?, isBlank c = false) : strip cs = cs := stripBy_eq hhead hlast

theorem strip_eq_self (h : ∀ c ∈ cs, isBlank c = false) : strip cs = cs :=
  strip_eq (fun c hc => h c (List.mem_of_head? hc)) (fun c hc => h c (List.mem_of_getLast? hc))

theorem strip_cons_of_blank {b : Char} (h : isBlank b = true) : strip (b :: cs) = strip cs := by
  unfold strip stripBy
  rw [List.dropWhile_cons, h]
  rfl

/-- A text keeps its first character if that is not blank. -/
theorem exists_strip_cons (cs : List Char) {c : Char} (h : isBlank c = false) :
    ∃ rest, strip (c :: cs) = c :: rest := by
  have hkeep : ∀ ds : List Char,
      (ds ++ [c]).dropWhile isBlank = ds.dropWhile isBlank ++ [c] := by
    intro ds
    rw [List.dropWhile_append]
    cases hds : ds.dropWhile isBlank with
    | nil => simp [h]
    | cons d rest => rfl
  unfold strip stripBy
  rw [List.dropWhile_cons, h, if_neg Bool.false_ne_true, List.reverse_cons, hkeep,
    List.reverse_append]
  exact ⟨_, rfl⟩

end Strip

section Lines

/-- No line ends within the text. -/
def Unbroken (cs : List Char) : Prop := ∀ c ∈ cs, isLineBreak c = false

instance (cs : List Char) : Decidable (Unbroken cs) := List.decidableBAll _ cs

theorem unbroken_append {cs ds : List Char} (hcs : Unbroken cs) (hds : Unbroken ds) :
    Unbroken (cs ++ ds) := List.forall_mem_append.2 ⟨hcs, hds⟩

theorem linesFrom_cons {line : List Char} {c : Char} (h : isLineBreak c = false)
    (rest : List Char) : linesFrom line (c :: rest) = linesFrom (c :: line) rest := by
  have hreturn : c ≠ '\r' := by
    intro heq
    subst heq
    exact absurd h (by decide)
  rw [linesFrom]
  · rw [h]
    rfl
  · intro tail hc
    exact absurd hc hreturn

theorem linesFrom_append {cs : List Char} (h : Unbroken cs) (line rest : List Char) :
    linesFrom line (cs ++ '\n' :: rest) = (line.reverse ++ cs) :: linesFrom [] rest := by
  induction cs generalizing line with
  | nil =>
    rw [List.append_nil]
    rfl
  | cons c cs ih =>
    unfold Unbroken at h
    rw [List.forall_mem_cons] at h
    rw [List.cons_append, linesFrom_cons h.1, ih h.2, List.reverse_cons, List.append_assoc]
    rfl

theorem lines_flatMap {ls : List (List Char)} (h : ∀ l ∈ ls, Unbroken l) :
    lines (ls.flatMap (fun l => l ++ ['\n'])) = ls := by
  induction ls with
  | nil => rfl
  | cons l ls ih =>
    rw [List.forall_mem_cons] at h
    unfold lines at ih ⊢
    rw [List.flatMap_cons, List.append_assoc, List.singleton_append, linesFrom_append h.1, ih h.2]
    rfl

theorem unifyBreaksFrom_eq {cs : List Char} (h : '\r' ∉ cs) (done : List Char) :
    unifyBreaksFrom done cs = done.reverse ++ cs := by
  induction cs generalizing done with
  | nil => rw [List.append_nil, unifyBreaksFrom]
  | cons c rest ih =>
    rw [List.mem_cons, not_or] at h
    obtain ⟨hc, hrest⟩ := h
    rw [unifyBreaksFrom, if_neg (Ne.symm hc), ih hrest, List.reverse_cons, List.append_assoc]
    · rfl
    · intro tail he
      exact absurd he.symm hc

/-- A text without carriage returns has its breaks unified. -/
theorem unifyBreaks_eq_self {cs : List Char} (h : '\r' ∉ cs) : unifyBreaks cs = cs :=
  unifyBreaksFrom_eq h []

end Lines

end FactorSearch.Text
