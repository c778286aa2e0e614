import FactorSearch.Proofs.SolutionPlace

/-!
Files written one after another. A walk ends at one place, be it that the path leads there
or that something is missing or in the way there, and no file that is written elsewhere
can change where the path leads. Whatever is done with a path depends on where it leads
only, so it is done alike in two trees of files in which the path leads to the same.
-/

namespace FactorSearch

namespace World

variable {w v u : World} {S T : Place → Prop} {path t : String} {p q : Place}

section Ends

/-- The last place that a walk comes to. -/
def walkEnd (w : World) (place : Place) : List String → Place
  | [] => place
  | name :: rest =>
    if entry? w place = some .directory then
      if name = "" ∨ name = "." then walkEnd w place rest
      else if name = ".." then walkEnd w place.tail rest
      else if longestName < name.utf8ByteSize then place
      else if w.occupied (name :: place) then walkEnd w (name :: place) rest
      else name :: place
    else place

theorem walkEnd_of_not_directory (h : entry? w p ≠ some .directory) (names : List String) :
    w.walkEnd p names = p := by
  cases names with
  | nil => rfl
  | cons name rest => rw [walkEnd, if_neg h]

/-- What a walk makes of its first name: it goes on from some place, or ends at once. -/
inductive Turn (w : World) (p : Place) (name : String) : Prop
  | on (d : Place) (h : ∀ rest, w.walk p (name :: rest) = w.walk d rest ∧
      w.walkEnd p (name :: rest) = w.walkEnd d rest)
  | stuck (kind : FileErrorKind) (h : ∀ rest, w.walk p (name :: rest) = .error kind ∧
      w.walkEnd p (name :: rest) = p)
  | missing (h : ∀ rest, w.walk p (name :: rest) =
        (if rest.isEmpty then .ok (.free (name :: p)) else .error .notFound) ∧
      w.walkEnd p (name :: rest) = name :: p)

theorem turn (w : World) (p : Place) (name : String) : w.Turn p name := by
  by_cases hdir : entry? w p = some .directory
  · by_cases hsame : name = "" ∨ name = "."
    · refine .on p fun rest => ?_
      rw [walk_cons hdir, walkEnd, if_pos hdir, if_pos hsame, if_pos hsame]
      exact ⟨rfl, rfl⟩
    by_cases hup : name = ".."
    · refine .on p.tail fun rest => ?_
      rw [walk_cons hdir, walkEnd, if_pos hdir, if_neg hsame, if_neg hsame, if_pos hup, if_pos hup]
      exact ⟨rfl, rfl⟩
    by_cases hlong : longestName < name.utf8ByteSize
    · refine .stuck .nameTooLong fun rest => ?_
      rw [walk_cons hdir, walkEnd, if_pos hdir, if_neg hsame, if_neg hsame, if_neg hup, if_neg hup,
        if_pos hlong, if_pos hlong]
      exact ⟨rfl, rfl⟩
    have hopen : ∀ rest, w.walk p (name :: rest) = (if w.occupied (name :: p) then
          w.walk (name :: p) rest
        else if rest.isEmpty then .ok (.free (name :: p)) else .error .notFound) ∧
        w.walkEnd p (name :: rest) = if w.occupied (name :: p) then
          w.walkEnd (name :: p) rest else name :: p := by
      intro rest
      rw [walk_cons hdir, walkEnd, if_pos hdir, if_neg hsame, if_neg hsame, if_neg hup, if_neg hup,
        if_neg hlong, if_neg hlong]
      exact ⟨rfl, rfl⟩
    by_cases hnext : w.occupied (name :: p)
    · simp only [if_pos hnext] at hopen
      exact .on (name :: p) hopen
    · simp only [if_neg hnext] at hopen
      exact .missing hopen
  · refine .stuck .notDirectory fun rest => ?_
    rw [walk_cons_of_not_directory hdir, walkEnd_of_not_directory hdir]
    exact ⟨rfl, rfl⟩

theorem place_of_walk {names : List String} {l : Located} (h : w.walk p names = .ok l) :
    l.place = w.walkEnd p names := by
  induction names generalizing p with
  | nil => exact place_of_walk_nil h
  | cons name rest ih =>
    cases w.turn p name with
    | on d hd =>
      rw [(hd rest).1] at h
      rw [(hd rest).2, ih h]
    | stuck kind hstuck =>
      rw [(hstuck rest).1] at h
      cases h
    | missing hmissing =>
      rw [(hmissing rest).1] at h
      rw [(hmissing rest).2]
      split at h <;> cases h
      rfl

/-- A walk that does not end at the place of a new file goes as before. -/
theorem walk_put_of_ne (hq : w.Vacant q) (t : String) {names : List String}
    (h : w.walkEnd p names ≠ q) :
    (w.put q t).walk p names = w.walk p names ∧
      (w.put q t).walkEnd p names = w.walkEnd p names := by
  induction names generalizing p with
  | nil =>
    have hne : q ≠ p := fun heq => h heq.symm
    rw [walk, walk, entry?_put_of_ne hq.below_root t hne]
    exact ⟨rfl, rfl⟩
  | cons name rest ih =>
    have hdirectory := entry?_put_directory_iff hq t p
    by_cases hdir : entry? w p = some .directory
    · have hdir' := hdirectory.2 hdir
      rw [walk_cons hdir, walk_cons hdir', walkEnd, walkEnd, if_pos hdir, if_pos hdir']
      rw [walkEnd, if_pos hdir] at h
      split at h
      · rename_i hsame
        simp only [if_pos hsame]
        exact ih h
      rename_i hsame
      simp only [if_neg hsame]
      split at h
      · rename_i hup
        simp only [if_pos hup]
        exact ih h
      rename_i hup
      simp only [if_neg hup]
      split at h
      · rename_i hlong
        simp only [if_pos hlong, and_self]
      rename_i hlong
      simp only [if_neg hlong]
      have hne : q ≠ name :: p := by
        rintro rfl
        apply h
        rw [walkEnd_of_not_directory hq.not_directory, ite_self]
      rw [occupied_put_of_ne hq.below_root t hne]
      split at h
      · rename_i hnext
        simp only [if_pos hnext]
        exact ih h
      · rename_i hnext
        simp only [if_neg hnext, and_self]
    · have hdir' := fun he => hdir (hdirectory.1 he)
      rw [walk_cons_of_not_directory hdir, walk_cons_of_not_directory hdir', walkEnd, walkEnd,
        if_neg hdir, if_neg hdir']
      exact ⟨rfl, rfl⟩

/-- The path is not refused as it stands, and its walk ends at the place. -/
def EndsAt (w : World) (path : String) (q : Place) : Prop :=
  path ≠ "" ∧ path.utf8ByteSize ≤ longestPath ∧
    w.walkEnd (if path.startsWith "/" then [] else w.workingDirectory) (namesOf path) = q

theorem Leads.endsAt (h : w.Leads path q) : w.EndsAt path q := by
  obtain ⟨-, l, hl, rfl⟩ := h
  unfold locate locateNames at hl
  split at hl
  · cases hl
  rename_i hne
  split at hl
  · cases hl
  rename_i hlong
  exact ⟨hne, Nat.le_of_not_lt hlong, (place_of_walk hl).symm⟩

theorem EndsAt.unique (h : w.EndsAt path p) (h' : w.EndsAt path q) : p = q :=
  h.2.2.symm.trans h'.2.2

/-- A path that does not end at the place of a new file leads to where it led. -/
theorem locate_put_of_not_endsAt (hq : w.Vacant q) (t : String) (h : ¬ w.EndsAt path q) :
    (w.put q t).locate path = w.locate path ∧
      ∀ p, (w.put q t).EndsAt path p ↔ w.EndsAt path p := by
  by_cases hne : path = ""
  · subst hne
    exact ⟨rfl, fun p => ⟨fun hp => absurd rfl hp.1, fun hp => absurd rfl hp.1⟩⟩
  by_cases hlong : longestPath < path.utf8ByteSize
  · constructor
    · unfold locate locateNames
      rw [if_neg hne, if_pos hlong, if_neg hne, if_pos hlong]
    · exact fun p => ⟨fun hp => absurd hlong (Nat.not_lt.2 hp.2.1),
        fun hp => absurd hlong (Nat.not_lt.2 hp.2.1)⟩
  obtain ⟨hwalk, hend⟩ := walk_put_of_ne hq t fun hend => h ⟨hne, Nat.le_of_not_lt hlong, hend⟩
  constructor
  · unfold locate locateNames
    rw [if_neg hne, if_neg hlong, if_neg hne, if_neg hlong]
    exact hwalk
  · intro p
    unfold EndsAt
    rw [show (w.put q t).workingDirectory = w.workingDirectory from rfl, hend]

end Ends

/-- Files put at vacant places one after another, each at one of the given places. -/
inductive Puts (S : Place → Prop) (w : World) : World → Prop
  | nothing : Puts S w w
  | put {v : World} {q : Place} (h : Puts S w v) (hq : v.Vacant q) (hS : S q) (t : String) :
      Puts S w (v.put q t)

namespace Puts

theorem one (hq : w.Vacant q) (hS : S q) (t : String) : Puts S w (w.put q t) :=
  .put .nothing hq hS t

theorem mono (h : Puts S w v) (hST : ∀ q, S q → T q) : Puts T w v := by
  induction h with
  | nothing => exact .nothing
  | put _ hq hS t ih => exact .put ih hq (hST _ hS) t

theorem trans (h : Puts S w v) (h' : Puts S v u) : Puts S w u := by
  induction h' with
  | nothing => exact h
  | put _ hq hS t ih => exact .put ih hq hS t

theorem vacant_iff (h : Puts S w v) (q : Place) : v.Vacant q ↔ w.Vacant q := by
  induction h with
  | nothing => exact Iff.rfl
  | put _ hq _ t ih => exact (vacant_put_iff hq t q).trans ih

/-- The places were vacant from the beginning. -/
theorem vacant (h : Puts S w v) : Puts (fun q => S q ∧ w.Vacant q) w v := by
  induction h with
  | nothing => exact .nothing
  | put h hq hS t ih => exact .put ih hq ⟨hS, (h.vacant_iff _).1 hq⟩ t

/-- All other places keep their entries. -/
theorem entry?_eq (h : Puts S w v) (hq : ¬ S q) : entry? v q = entry? w q := by
  induction h with
  | nothing => rfl
  | @put v q' _ hvacant hS t ih =>
    have hne : q' ≠ q := by
      rintro rfl
      exact hq hS
    rw [entry?_put_of_ne hvacant.below_root t hne, ih]

theorem locate_eq_and_endsAt_iff (h : Puts S w v) (havoids : ∀ q, w.EndsAt path q → ¬ S q) :
    v.locate path = w.locate path ∧ ∀ q, v.EndsAt path q ↔ w.EndsAt path q := by
  induction h with
  | nothing => exact ⟨rfl, fun _ => Iff.rfl⟩
  | put h hq hS t ih =>
    obtain ⟨hlocate, hends⟩ := ih
    obtain ⟨hlocate', hends'⟩ := locate_put_of_not_endsAt hq t fun hend =>
      havoids _ ((hends _).1 hend) hS
    exact ⟨hlocate'.trans hlocate, fun q => (hends' q).trans (hends q)⟩

/-- A path that ends at none of the places leads to where it led. -/
theorem locate_eq (h : Puts S w v) (havoids : ∀ q, w.EndsAt path q → ¬ S q) :
    v.locate path = w.locate path := (h.locate_eq_and_endsAt_iff havoids).1

end Puts

section Congruence

variable (h : v.locate path = w.locate path)
include h

theorem leads_congr (p : Place) : v.Leads path p ↔ w.Leads path p := by
  unfold Leads
  rw [h]

theorem read_congr : v.read path = w.read path := by
  unfold read
  rw [h]

theorem present_congr : v.present path = w.present path := by
  unfold present
  rw [h]

end Congruence

theorem entry?_put_congr (h : entry? v p = entry? w p) (q : Place) (t : String) :
    entry? (v.put q t) p = entry? (w.put q t) p := by
  cases p with
  | nil => rfl
  | cons name parent =>
    have hentry : v.entries.get? (name :: parent) = w.entries.get? (name :: parent) := h
    show (v.entries.insert q _).get? (name :: parent) = (w.entries.insert q _).get? (name :: parent)
    rw [Table.get?_insert, Table.get?_insert, hentry]

/-- Writing depends on where the path leads only. -/
theorem write_eq (hslash : path.endsWith "/" = false) (hne : path ≠ "") (t : String) :
    w.write path t = if hasNull path then .error .nullByte else
      match w.locate path with
      | .error kind => fileError kind path
      | .ok (.found _ .directory) => fileError .isDirectory path
      | .ok l => .ok (w.put l.place t) := by
  unfold write locate
  simp only [dropWhile_namesOf hslash hne, hslash, Bool.false_eq_true, if_false]
  cases w.locateNames path (namesOf path) with
  | error kind => rfl
  | ok l =>
    cases l with
    | free p => rfl
    | found p e => cases e <;> rfl

/-- A file is written in both trees at one place, or refused in both. -/
theorem write_congr (h : v.locate path = w.locate path) (hslash : path.endsWith "/" = false)
    (hne : path ≠ "") (t : String) :
    (∃ q, w.write path t = .ok (w.put q t) ∧ v.write path t = .ok (v.put q t)) ∨
      ∃ e, w.write path t = .error e ∧ v.write path t = .error e := by
  rw [write_eq hslash hne, write_eq hslash hne, h]
  split
  · exact Or.inr ⟨_, rfl, rfl⟩
  · split
    · exact Or.inr ⟨_, rfl, rfl⟩
    · exact Or.inr ⟨_, rfl, rfl⟩
    · exact Or.inl ⟨_, rfl, rfl⟩

section Solution

/-- A walk that comes to a directory goes on from there. -/
theorem walk_append {d : Place} {names : List String}
    (h : w.walk p names = .ok (.found d .directory)) (rest : List String) :
    w.walk p (names ++ rest) = w.walk d rest ∧ w.walkEnd p (names ++ rest) = w.walkEnd d rest := by
  induction names generalizing p with
  | nil =>
    have hplace : d = p := place_of_walk_nil h
    rw [hplace]
    exact ⟨rfl, rfl⟩
  | cons name names ih =>
    rw [List.cons_append]
    cases w.turn p name with
    | on d' hd' =>
      rw [(hd' names).1] at h
      rw [(hd' (names ++ rest)).1, (hd' (names ++ rest)).2]
      exact ih h
    | stuck kind hstuck =>
      rw [(hstuck names).1] at h
      cases h
    | missing hmissing =>
      rw [(hmissing names).1] at h
      split at h <;> cases h

/-- In a directory the walk to a proper name ends at the name, unless the name is too long. -/
theorem walk_singleton {d : Place} {name : String} (hd : entry? w d = some .directory)
    (hsame : ¬ (name = "" ∨ name = ".")) (hup : name ≠ "..") :
    w.walkEnd d [name] = d ∨ ∃ l, w.walk d [name] = .ok l := by
  rw [walkEnd, if_pos hd, walk_cons hd, if_neg hsame, if_neg hsame, if_neg hup, if_neg hup]
  split
  · exact Or.inl rfl
  · refine Or.inr ?_
    split
    · rename_i hnext
      obtain ⟨e, he⟩ := Option.isSome_iff_exists.1 hnext
      rw [walk, he]
      exact ⟨_, rfl⟩
    · rw [List.isEmpty_nil, if_pos rfl]
      exact ⟨_, rfl⟩

variable {sol : Path} {P : Place} {p : Path}

theorem suffix_solution (hsol : p.solution = .ok sol) : ".sol".toList <:+ sol.text.toList := by
  obtain ⟨dir, name, -, rfl⟩ := Path.exists_of_solution hsol
  have hname : ".sol".toList <:+ (Path.stem name ++ ".sol").toList := by
    rw [String.toList_append]
    exact List.suffix_append _ _
  rw [Path.toList_text (by simp), List.map_append, List.map_singleton]
  exact (hname.trans (Text.suffix_intercalate _ _ _)).trans (List.suffix_append _ _)

/-- The path of a solution is one that a file can have. -/
theorem proper_solution (hsol : p.solution = .ok sol) :
    sol.text.endsWith "/" = false ∧ sol.text ≠ "" := by
  obtain ⟨cs, hcs⟩ := suffix_solution hsol
  constructor
  · rw [Bool.eq_false_iff, ne_eq, endsWith_slash_iff, ← hcs]
    simp
  · rintro h
    rw [h] at hcs
    exact absurd (List.append_eq_nil_iff.1 hcs).2 (by decide)

/-- The path of a solution leads to where it ends, unless it ends in a directory. -/
theorem leads_of_endsAt_solution (hp : p.Normal) (hsol : p.solution = .ok sol)
    (hP : w.Leads p.text P) (h : w.EndsAt sol.text q) :
    w.Leads sol.text q ∨ entry? w q = some .directory := by
  have hnormal := hp.solution hsol
  have hnull := Path.hasNull_solution hsol hP.1
  obtain ⟨dir, name, hnames, rfl⟩ := Path.exists_of_solution hsol
  obtain ⟨d, hd, -⟩ := exists_dir_of_leads hp hnames hP
  have hentry : entry? w d = some .directory := holds_of_walk hd
  obtain ⟨hne, hlong, hend⟩ := h
  have hcut : w.start ⟨p.root, dir ++ [Path.stem name ++ ".sol"]⟩ = w.start p := rfl
  rw [start_eq hnormal (by simp), hcut, Path.namesOf_text hnormal (by simp), ← List.append_assoc,
    (walk_append hd _).2] at hend
  obtain ⟨hempty, hdot, -⟩ := hnormal.names (Path.stem name ++ ".sol") (by simp)
  rcases walk_singleton hentry (by simp [hempty, hdot]) (Path.stem_ne_up name) with hd' | ⟨l, hl⟩
  · rw [hd'] at hend
    exact Or.inr (hend ▸ hentry)
  · refine Or.inl ⟨hnull, l, ?_, (place_of_walk hl).trans hend⟩
    unfold locate locateNames
    rw [if_neg hne, if_neg (Nat.not_lt.2 hlong), start_eq hnormal (by simp), hcut,
      Path.namesOf_text hnormal (by simp), ← List.append_assoc, (walk_append hd _).1, hl]

end Solution

end World

end FactorSearch
