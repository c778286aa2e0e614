import FactorSearch.World
import FactorSearch.Proofs.Lines
import Mathlib.Data.List.Basic

/-!
Writing a file in a tree of files. A path leads to the same place before and after, unless
it failed, and every other place keeps its entry. So what is read afterwards was there
before or has just been written, and no directory comes or goes.
-/

namespace FactorSearch

/-- The place that a path leads to. -/
def Located.place : Located → Place
  | .found p _ => p
  | .free p => p

namespace World

variable {w w' : World} {q : Place} {t path : String}

/-- Put a file of the given text at a place. -/
def put (w : World) (q : Place) (t : String) : World :=
  { w with entries := w.entries.insert q (.file (.text t)) }

/-- A place for a file: not the root and no directory. -/
structure Vacant (w : World) (q : Place) : Prop where
  below_root : q ≠ []
  not_directory : entry? w q ≠ some .directory

theorem entry?_put (hq : q ≠ []) (t : String) (p : Place) :
    entry? (w.put q t) p = if q = p then some (.file (.text t)) else entry? w p := by
  cases p with
  | nil => rw [if_neg hq, entry?, entry?]
  | cons name parent =>
    unfold entry? put
    exact Table.get?_insert _ _ _ _

theorem entry?_put_self (hq : q ≠ []) (t : String) :
    entry? (w.put q t) q = some (.file (.text t)) := by
  rw [entry?_put hq, if_pos rfl]

theorem entry?_put_of_ne (hq : q ≠ []) (t : String) {p : Place} (h : q ≠ p) :
    entry? (w.put q t) p = entry? w p := by
  rw [entry?_put hq, if_neg h]

theorem entry?_put_directory_iff (hq : w.Vacant q) (t : String) (p : Place) :
    entry? (w.put q t) p = some .directory ↔ entry? w p = some .directory := by
  by_cases h : q = p
  · subst h
    rw [entry?_put_self hq.below_root]
    exact ⟨fun he => (by cases he), fun he => absurd he hq.not_directory⟩
  · rw [entry?_put_of_ne hq.below_root t h]

/-- Some entry is at the place. -/
def occupied (w : World) (p : Place) : Bool := entry? w p |>.isSome

theorem occupied_put_self (hq : q ≠ []) (t : String) : (w.put q t).occupied q = true := by
  rw [occupied, entry?_put_self hq, Option.isSome_some]

theorem occupied_put_of_ne (hq : q ≠ []) (t : String) {p : Place} (h : q ≠ p) :
    (w.put q t).occupied p = w.occupied p := by
  rw [occupied, entry?_put_of_ne hq t h, occupied]

/-- Where a path leads before and after a file has been put at a place. Where something was
missing, the file may now be found, or be in the way. -/
inductive Moved (q : Place) (t : String) :
    Except FileErrorKind Located → Except FileErrorKind Located → Prop
  | kept {l : Located} (h : q ≠ l.place) : Moved q t (.ok l) (.ok l)
  | replaced {l : Located} (h : q = l.place) :
      Moved q t (.ok l) (.ok (.found q (.file (.text t))))
  | appeared : Moved q t (.error .notFound) (.ok (.found q (.file (.text t))))
  | blocked : Moved q t (.error .notFound) (.error .notDirectory)
  | failed (kind : FileErrorKind) : Moved q t (.error kind) (.error kind)

theorem walk_cons_of_not_directory {p : Place} (h : entry? w p ≠ some .directory) (name : String)
    (rest : List String) : w.walk p (name :: rest) = .error .notDirectory := by
  rw [walk]
  split
  · rename_i hdir
    exact absurd hdir h
  · rfl

/-- One name of a walk. -/
theorem walk_cons {p : Place} (h : entry? w p = some .directory) (name : String)
    (rest : List String) : w.walk p (name :: rest) =
      if name = "" ∨ name = "." then w.walk p rest
      else if name = ".." then w.walk p.tail rest
      else if longestName < name.utf8ByteSize then .error .nameTooLong
      else if w.occupied (name :: p) then w.walk (name :: p) rest
      else if rest.isEmpty then .ok (.free (name :: p)) else .error .notFound := by
  rw [walk, h, occupied]
  simp only
  cases hnext : entry? w (name :: p) <;> rfl

/-- The walk goes on from the place of the file itself. -/
theorem moved_walk_onto (hq : w.Vacant q) (t : String) (rest : List String) :
    Moved q t (if w.occupied q then w.walk q rest
        else if rest.isEmpty then .ok (.free q) else .error .notFound)
      ((w.put q t).walk q rest) := by
  cases rest with
  | nil =>
    have hafter : (w.put q t).walk q [] = .ok (.found q (.file (.text t))) := by
      rw [walk, entry?_put_self hq.below_root]
    rw [hafter, occupied]
    cases hbefore : entry? w q with
    | none => exact .replaced rfl
    | some e =>
      rw [Option.isSome_some, if_pos rfl, walk, hbefore]
      exact .replaced rfl
  | cons name rest =>
    have hafter : entry? (w.put q t) q ≠ some .directory := by
      rw [entry?_put_self hq.below_root]
      exact fun h => nomatch h
    rw [walk_cons_of_not_directory hafter, walk_cons_of_not_directory hq.not_directory]
    split
    · exact .failed _
    · exact .blocked

theorem moved_walk (hq : w.Vacant q) (t : String) (p : Place) (names : List String) :
    Moved q t (w.walk p names) ((w.put q t).walk p names) := by
  induction names generalizing p with
  | nil =>
    unfold walk
    by_cases h : q = p
    · subst h
      rw [entry?_put_self hq.below_root]
      cases entry? w q with
      | none => exact .appeared
      | some e => exact .replaced rfl
    · rw [entry?_put_of_ne hq.below_root t h]
      cases entry? w p with
      | none => exact .failed _
      | some e => exact .kept h
  | cons name rest ih =>
    by_cases hdir : entry? w p = some .directory
    · rw [walk_cons hdir, walk_cons ((entry?_put_directory_iff hq t p).2 hdir)]
      split
      · exact ih p
      split
      · exact ih p.tail
      split
      · exact .failed _
      by_cases h : q = name :: p
      · subst h
        rw [occupied_put_self hq.below_root, if_pos rfl]
        exact moved_walk_onto hq t rest
      · rw [occupied_put_of_ne hq.below_root t h]
        split
        · exact ih (name :: p)
        · split
          · exact .kept h
          · exact .failed _
    · rw [walk_cons_of_not_directory hdir, walk_cons_of_not_directory
        (fun h => hdir ((entry?_put_directory_iff hq t p).1 h))]
      exact .failed _

theorem moved_locate (hq : w.Vacant q) (t path : String) :
    Moved q t (w.locate path) ((w.put q t).locate path) := by
  unfold locate locateNames
  split
  · exact .failed _
  split
  · exact .failed _
  · exact moved_walk hq t _ _

/-- A path without null characters that leads to the place, whether or not something is there. -/
def Leads (w : World) (path : String) (q : Place) : Prop :=
  hasNull path = false ∧ ∃ l, w.locate path = .ok l ∧ l.place = q

theorem Leads.unique {p : Place} (hp : w.Leads path p) (hq : w.Leads path q) : p = q := by
  obtain ⟨-, l, hl, rfl⟩ := hp
  obtain ⟨-, m, hm, rfl⟩ := hq
  rw [hl] at hm
  cases hm
  rfl

/-- A place that is found holds the entry, and a free place is below the root and empty. -/
def Holds (w : World) : Located → Prop
  | .found place e => entry? w place = some e
  | .free place => place ≠ [] ∧ entry? w place = none

theorem holds_of_walk {p : Place} {names : List String} {l : Located}
    (h : w.walk p names = .ok l) : w.Holds l := by
  induction names generalizing p with
  | nil =>
    unfold walk at h
    split at h
    · cases h
      assumption
    · cases h
  | cons name rest ih =>
    by_cases hdir : entry? w p = some .directory
    · rw [walk_cons hdir] at h
      split at h
      · exact ih h
      split at h
      · exact ih h
      split at h
      · cases h
      split at h
      · exact ih h
      · rename_i hnone
        split at h
        · cases h
          exact ⟨List.cons_ne_nil _ _, by simpa [occupied] using hnone⟩
        · cases h
    · rw [walk_cons_of_not_directory hdir] at h
      cases h

theorem holds_of_locate {l : Located} (h : w.locate path = .ok l) : w.Holds l := by
  unfold locate locateNames at h
  split at h
  · cases h
  split at h
  · cases h
  · exact holds_of_walk h

section Put

variable (hq : w.Vacant q)
include hq

theorem vacant_put_iff (t : String) (p : Place) : (w.put q t).Vacant p ↔ w.Vacant p := by
  have hdir := entry?_put_directory_iff hq t p
  exact ⟨fun h => ⟨h.1, fun hp => h.2 (hdir.2 hp)⟩, fun h => ⟨h.1, fun hp => h.2 (hdir.1 hp)⟩⟩

theorem locate_put_self (h : w.Leads path q) (t : String) :
    (w.put q t).locate path = .ok (.found q (.file (.text t))) := by
  obtain ⟨-, l, hl, hplace⟩ := h
  have hmoved := moved_locate hq t path
  rw [hl] at hmoved
  generalize (w.put q t).locate path = after at hmoved ⊢
  cases hmoved with
  | kept hne => exact absurd hplace.symm hne
  | replaced => rfl

theorem locate_put_of_ne {p : Place} (h : w.Leads path p) (hp : q ≠ p) (t : String) :
    (w.put q t).locate path = w.locate path := by
  obtain ⟨-, l, hl, rfl⟩ := h
  have hmoved := moved_locate hq t path
  rw [hl] at hmoved ⊢
  generalize (w.put q t).locate path = after at hmoved ⊢
  cases hmoved with
  | kept => rfl
  | replaced heq => exact absurd heq hp

theorem Leads.put {p : Place} (h : w.Leads path p) (t : String) : (w.put q t).Leads path p := by
  refine ⟨h.1, ?_⟩
  by_cases hp : q = p
  · subst hp
    exact ⟨_, locate_put_self hq h t, rfl⟩
  · rw [locate_put_of_ne hq h hp]
    exact h.2

theorem read_put_self (h : w.Leads path q) (t : String) :
    (w.put q t).read path = .ok t.toList := by
  unfold read
  rw [h.1, locate_put_self hq h]
  rfl

theorem read_put_of_ne {p : Place} (h : w.Leads path p) (hp : q ≠ p) (t : String) :
    (w.put q t).read path = w.read path := by
  unfold read
  rw [locate_put_of_ne hq h hp]

theorem present_put_self (h : w.Leads path q) (t : String) :
    (w.put q t).present path = .ok true := by
  unfold present
  rw [h.1, locate_put_self hq h]
  rfl

theorem present_put_of_ne {p : Place} (h : w.Leads path p) (hp : q ≠ p) (t : String) :
    (w.put q t).present path = w.present path := by
  unfold present
  rw [locate_put_of_ne hq h hp]

/-- What is read was there before or has been written, unless the path fails both times. -/
theorem read_put_cases (t path : String) :
    (w.put q t).read path = w.read path ∨ (w.put q t).read path = .ok t.toList ∨
      ∃ kind kind', w.read path = fileError kind path ∧
        (w.put q t).read path = fileError kind' path := by
  unfold read
  split
  · exact Or.inl rfl
  have hmoved := moved_locate hq t path
  generalize w.locate path = before at hmoved ⊢
  generalize (w.put q t).locate path = after at hmoved ⊢
  cases hmoved with
  | kept => exact Or.inl rfl
  | replaced => exact Or.inr (Or.inl rfl)
  | appeared => exact Or.inr (Or.inl rfl)
  | blocked => exact Or.inr (Or.inr ⟨_, _, rfl, rfl⟩)
  | failed => exact Or.inl rfl

theorem isDirectory_put (t path : String) :
    (w.put q t).isDirectory path = w.isDirectory path := by
  have hfound : ∀ p, w.locate path = .ok (.found p .directory) → q ≠ p := by
    rintro p hp rfl
    exact hq.not_directory (holds_of_locate hp)
  unfold isDirectory
  have hmoved := moved_locate hq t path
  generalize w.locate path = before at hmoved hfound ⊢
  generalize (w.put q t).locate path = after at hmoved ⊢
  cases hasNull path with
  | true => rfl
  | false =>
    cases hmoved with
    | kept => rfl
    | @replaced l hplace =>
      cases l with
      | free p => rfl
      | found p e =>
        cases e with
        | file c => rfl
        | directory => exact absurd hplace (hfound p rfl)
    | appeared => rfl
    | blocked => rfl
    | failed => rfl

end Put

theorem exists_leads_of_read {cs : List Char} (h : w.read path = .ok cs) :
    ∃ p c, w.Leads path p ∧ entry? w p = some (.file c) := by
  unfold read at h
  split at h
  · cases h
  rename_i hnull
  split at h
  all_goals try cases h
  rename_i p t hp
  exact ⟨p, .text t, ⟨by simpa using hnull, _, hp, rfl⟩, holds_of_locate hp⟩

theorem present_of_read {cs : List Char} (h : w.read path = .ok cs) : w.present path = .ok true := by
  unfold read at h
  unfold present
  split at h
  · cases h
  rename_i hnull
  rw [if_neg hnull]
  split at h
  all_goals try cases h
  rename_i hlocate
  rw [hlocate]

/-- What a file holds does not change when a file is put where nothing was. -/
theorem read_put_of_read {cs : List Char} (hfree : entry? w q = none) (hq : w.Vacant q)
    (h : w.read path = .ok cs) (t : String) : (w.put q t).read path = .ok cs := by
  obtain ⟨p, c, hleads, hp⟩ := exists_leads_of_read h
  have hne : q ≠ p := by
    rintro rfl
    rw [hfree] at hp
    cases hp
  rw [read_put_of_ne hq hleads hne, h]

section Write

theorem exists_fieldsFrom_concat (separates : Char → Bool) {c : Char} (hc : separates c = false)
    (field cs : List Char) :
    ∃ ws w, Text.fieldsFrom separates field (cs ++ [c]) = ws ++ [w] ∧ w ≠ [] := by
  induction cs generalizing field with
  | nil =>
    refine ⟨[], (c :: field).reverse, ?_, by simp⟩
    rw [List.nil_append, Text.fieldsFrom, hc]
    rfl
  | cons d rest ih =>
    rw [List.cons_append, Text.fieldsFrom]
    split
    · obtain ⟨ws, w, hws, hw⟩ := ih []
      exact ⟨field.reverse :: ws, w, by rw [hws, List.cons_append], hw⟩
    · exact ih (d :: field)

theorem endsWith_slash_iff (path : String) :
    path.endsWith "/" = true ↔ path.toList.getLast? = some '/' := by
  rw [← String.endsWith_toSlice, String.Slice.endsWith_string_iff, String.copy_toSlice]
  show ['/'] <:+ path.toList ↔ _
  constructor
  · rintro ⟨cs, hcs⟩
    rw [← hcs, List.getLast?_concat]
  · intro h
    exact ⟨_, List.dropLast_append_getLast? '/' h⟩

/-- A path that does not end in a slash has no empty name at its end. -/
theorem dropWhile_namesOf (h : path.endsWith "/" = false) (hne : path ≠ "") :
    ((namesOf path).reverse.dropWhile (· = "")).reverse = namesOf path := by
  obtain ⟨cs, c, hpath⟩ : ∃ cs c, path.toList = cs ++ [c] := by
    have hlist : path.toList ≠ [] := fun he => hne (String.toList_eq_nil_iff.1 he)
    exact ⟨_, _, (List.dropLast_append_getLast hlist).symm⟩
  have hc : decide (c = '/') = false := by
    rw [decide_eq_false_iff_not]
    rintro rfl
    rw [(endsWith_slash_iff path).2 (by rw [hpath, List.getLast?_concat])] at h
    cases h
  obtain ⟨ws, w, hws, hw⟩ := exists_fieldsFrom_concat (· = '/') hc [] cs
  have hword : String.ofList w ≠ "" := by simpa using hw
  unfold namesOf Text.fields
  rw [hpath, hws, List.map_append, List.map_singleton, List.reverse_append, List.reverse_singleton,
    List.singleton_append, List.dropWhile_cons_of_neg (by simpa using hword), List.reverse_cons,
    List.reverse_reverse]

/-- A path to which a file can be written. -/
structure Writable (w : World) (path : String) (q : Place) : Prop where
  no_slash : path.endsWith "/" = false
  leads : w.Leads path q
  vacant : w.Vacant q

theorem Writable.put {p : Place} (h : w.Writable path p) (hq : w.Vacant q) (t : String) :
    (w.put q t).Writable path p where
  no_slash := h.no_slash
  leads := h.leads.put hq t
  vacant := (vacant_put_iff hq t p).2 h.vacant

theorem write_of_writable (h : w.Writable path q) (t : String) : w.write path t = .ok (w.put q t) := by
  obtain ⟨hslash, ⟨hnull, l, hl, hplace⟩, hq⟩ := h
  have hne : path ≠ "" := by
    rintro rfl
    cases hl
  unfold write
  rw [hnull]
  simp only [Bool.false_eq_true, if_false, dropWhile_namesOf hslash hne]
  unfold locate at hl
  rw [hl]
  subst hplace
  cases l with
  | free p =>
    simp only [hslash, Bool.false_eq_true, if_false]
    rfl
  | found p e =>
    cases e with
    | directory => exact absurd (holds_of_locate hl) hq.not_directory
    | file c =>
      simp only [hslash, Bool.false_eq_true, if_false]
      rfl

theorem exists_writable_of_write (h : w.write path t = .ok w') :
    ∃ q, w.Writable path q ∧ w' = w.put q t := by
  unfold write at h
  split at h
  · cases h
  rename_i hnull
  have hnull : hasNull path = false := by simpa using hnull
  have hne : path ≠ "" := by
    rintro rfl
    cases h
  simp only at h
  cases hslash : path.endsWith "/" with
  | true =>
    simp only [hslash, if_true] at h
    split at h <;> cases h
  | false =>
    simp only [hslash, dropWhile_namesOf hslash hne, Bool.false_eq_true, if_false] at h
    split at h
    all_goals cases h
    · rename_i p e hdir hp
      have hentry : entry? w p = some e := holds_of_locate hp
      have hfile : e ≠ .directory := by
        rintro rfl
        exact hdir rfl
      refine ⟨p, ⟨hslash, ⟨hnull, _, hp, rfl⟩, ?_, ?_⟩, rfl⟩
      · rintro rfl
        unfold entry? at hentry
        exact hfile (Option.some.inj hentry).symm
      · rw [hentry]
        exact fun he => hfile (Option.some.inj he)
    · rename_i p hp
      obtain ⟨hroot, hnone⟩ := holds_of_locate hp
      refine ⟨p, ⟨hslash, ⟨hnull, _, hp, rfl⟩, hroot, ?_⟩, rfl⟩
      rw [hnone]
      exact fun h => nomatch h

end Write

/-- All directories stay, and paths that led somewhere or could be written still do and can. -/
structure Grows (w w' : World) : Prop where
  isDirectory : ∀ path, w'.isDirectory path = w.isDirectory path
  leads : ∀ path p, w.Leads path p → w'.Leads path p
  writable : ∀ path p, w.Writable path p → w'.Writable path p

theorem Grows.refl (w : World) : Grows w w := ⟨fun _ => rfl, fun _ _ h => h, fun _ _ h => h⟩

theorem Grows.trans {w'' : World} (h : Grows w w') (h' : Grows w' w'') : Grows w w'' where
  isDirectory path := (h'.isDirectory path).trans (h.isDirectory path)
  leads path p hp := h'.leads path p (h.leads path p hp)
  writable path p hp := h'.writable path p (h.writable path p hp)

theorem grows_put (hq : w.Vacant q) (t : String) : Grows w (w.put q t) where
  isDirectory := isDirectory_put hq t
  leads _ _ hp := hp.put hq t
  writable _ _ hp := hp.put hq t

section Beside

/-- A problem that asks whether the last bit is the conjunction of the others. -/
def conjunction : String :=
  "c v output:[3]\nc v first input:[1]\nc v second input:[2]\n1 -3 0\n2 -3 0\n"

/-- A problem in a folder of its own. -/
def alone (problem : String) : World := empty.put ["p.cnf"] problem

/-- A problem and a solution beside it. -/
def beside (problem solution : String) : World := (alone problem).put ["p.sol"] solution

theorem exists_locate_of_place {path : String} {q : Place}
    (h : (w.locate path).toOption.map Located.place = some q) :
    ∃ l, w.locate path = .ok l ∧ l.place = q := by
  cases hl : w.locate path with
  | error kind =>
    rw [hl] at h
    cases h
  | ok l =>
    rw [hl] at h
    exact ⟨l, rfl, Option.some.inj h⟩

theorem writable_problem : empty.Writable "p.cnf" ["p.cnf"] where
  no_slash := by decide +kernel
  leads := ⟨by decide +kernel, exists_locate_of_place (by decide +kernel)⟩
  vacant := ⟨by decide, by decide⟩

theorem writable_solution (problem : String) : (alone problem).Writable "p.sol" ["p.sol"] := by
  have hempty : empty.Writable "p.sol" ["p.sol"] :=
    ⟨by decide +kernel, ⟨by decide +kernel, exists_locate_of_place (by decide +kernel)⟩, by decide,
      by decide⟩
  exact hempty.put writable_problem.vacant problem

/-- Nothing is there where a path leads to a place without an entry. -/
theorem absent_of_leads {path : String} {q : Place} {w : World} (h : w.Leads path q)
    (hnone : entry? w q = none) :
    w.present path = .ok false ∧ w.read path = fileError .notFound path := by
  obtain ⟨hnull, l, hl, rfl⟩ := h
  cases l with
  | free place =>
    unfold present read
    rw [hl, hnull]
    exact ⟨rfl, rfl⟩
  | found place e =>
    have hentry : entry? w place = some e := holds_of_locate hl
    rw [show entry? w place = none from hnone] at hentry
    cases hentry

/-- No solution is there. -/
theorem solution_alone (problem : String) :
    (alone problem).present "p.sol" = .ok false ∧
      (alone problem).read "p.sol" = fileError .notFound "p.sol" := by
  refine absent_of_leads (writable_solution problem).leads ?_
  rw [alone, entry?_put_of_ne writable_problem.vacant.below_root problem (by decide)]
  rfl

theorem read_alone (problem : String) : (alone problem).read "p.cnf" = .ok problem.toList :=
  read_put_self writable_problem.vacant writable_problem.leads problem

theorem read_beside (problem solution : String) :
    (beside problem solution).read "p.cnf" = .ok problem.toList ∧
      (beside problem solution).read "p.sol" = .ok solution.toList := by
  have hsol := writable_solution problem
  have hleads : (alone problem).Leads "p.cnf" ["p.cnf"] :=
    writable_problem.leads.put writable_problem.vacant problem
  refine ⟨?_, read_put_self hsol.vacant hsol.leads solution⟩
  rw [beside, read_put_of_ne hsol.vacant hleads (by decide), read_alone]

theorem isDirectory_beside (problem solution : String) :
    (alone problem).isDirectory "p.cnf" = false ∧ (beside problem solution).isDirectory "p.cnf" = false := by
  have hempty : empty.isDirectory "p.cnf" = false := by decide +kernel
  have halone : (alone problem).isDirectory "p.cnf" = false := by
    rw [alone, isDirectory_put writable_problem.vacant, hempty]
  refine ⟨halone, ?_⟩
  rw [beside, isDirectory_put (writable_solution problem).vacant, halone]

end Beside

end World

end FactorSearch
