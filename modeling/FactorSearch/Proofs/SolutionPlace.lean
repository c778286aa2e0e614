import FactorSearch.Proofs.FileTree

/-!
Where the solution of a problem lies. A path in normal form is shown with the names that
it was made from, so the walks to a problem and to its solution differ in the last name
only. The two end at different places unless the problem is named as a solution itself.
-/

namespace FactorSearch

open Text World

namespace Path

/-- The root is made of slashes, and the names are those that a walk can follow. -/
structure Normal (p : Path) : Prop where
  root : ∀ c ∈ p.root.toList, c = '/'
  names : ∀ n ∈ p.names, n ≠ "" ∧ n ≠ "." ∧ ∀ c ∈ n.toList, c ≠ '/'

theorem normal_ofText (s : String) : (ofText s).Normal where
  root := by
    unfold ofText rootOf
    simp only
    split <;> simp
  names := by
    intro n hn
    simp only [ofText, splitNames, List.mem_filter, Bool.and_eq_true, bne_iff_ne] at hn
    obtain ⟨hmem, hempty, hdot⟩ := hn
    obtain ⟨cs, hcs, rfl⟩ := List.mem_map.1 hmem
    refine ⟨hempty, hdot, ?_⟩
    rw [String.toList_ofList]
    intro c hc
    have hsep := separates_of_mem_fieldsFrom hcs (List.forall_mem_nil _) c hc
    simpa using hsep

variable {p sol : Path} {name : String}

theorem stem_subset (name : String) : (stem name).toList ⊆ name.toList := by
  have hback : name.toList.reverse.dropWhile (· ≠ '.') ⊆ name.toList :=
    fun c hc => List.mem_reverse.1 ((List.dropWhile_sublist _).subset hc)
  unfold stem
  simp only
  split
  · rename_i front hfront
    split
    · exact List.Subset.refl _
    · rw [String.toList_ofList]
      intro c hc
      rw [hfront] at hback
      exact hback (List.mem_cons_of_mem _ (List.mem_reverse.1 hc))
  · exact List.Subset.refl _

theorem stem_ne_up (name : String) : stem name ++ ".sol" ≠ ".." := by
  intro h
  have hlength := congrArg String.length h
  rw [String.length_append] at hlength
  have hsol : ".sol".length = 4 := rfl
  have hdots : "..".length = 2 := rfl
  omega

/-- The solution has the names of the problem but for the last. -/
theorem exists_of_solution (h : p.solution = .ok sol) :
    ∃ dir name, p.names = dir ++ [name] ∧ sol = ⟨p.root, dir ++ [stem name ++ ".sol"]⟩ := by
  unfold solution withSuffix name? at h
  split at h
  · rename_i name hname
    cases h
    obtain ⟨dir, hdir⟩ := List.getLast?_eq_some_iff.1 hname
    refine ⟨dir, name, hdir, ?_⟩
    unfold join parent
    rw [hdir, List.dropLast_concat]
  · cases h

theorem Normal.solution (hp : p.Normal) (h : p.solution = .ok sol) : sol.Normal := by
  obtain ⟨dir, name, hnames, rfl⟩ := exists_of_solution h
  have hall := hp.names
  rw [hnames, List.forall_mem_append, List.forall_mem_singleton] at hall
  refine ⟨hp.root, ?_⟩
  rw [List.forall_mem_append, List.forall_mem_singleton]
  refine ⟨hall.1, ?_, ?_, ?_⟩
  · intro h
    have hlist := congrArg String.toList h
    rw [String.toList_append] at hlist
    exact absurd (List.append_eq_nil_iff.1 hlist).2 (by decide)
  · intro h
    have hlength := congrArg String.length h
    rw [String.length_append] at hlength
    have hsol : ".sol".length = 4 := rfl
    have hdot : ".".length = 1 := rfl
    omega
  · rw [String.toList_append, List.forall_mem_append]
    exact ⟨fun c hc => hall.2.2.2 c (stem_subset name hc), by simp⟩

theorem toList_text (hne : p.names ≠ []) :
    p.text.toList = p.root.toList ++ ['/'].intercalate (p.names.map String.toList) := by
  have hempty : p.names.isEmpty = false := by simpa using hne
  unfold text
  rw [hempty, Bool.and_false, if_neg Bool.false_ne_true, String.toList_append,
    String.toList_intercalate]
  rfl

/-- The names of the path as it is shown, after an empty name for each slash of the root. -/
theorem namesOf_text (hp : p.Normal) (hne : p.names ≠ []) :
    namesOf p.text = List.replicate p.root.length "" ++ p.names := by
  have hslash : ∀ (rs cs : List Char), (∀ c ∈ rs, c = '/') →
      fields (· = '/') (rs ++ cs) = List.replicate rs.length [] ++ fields (· = '/') cs := by
    intro rs cs hrs
    induction rs with
    | nil => rfl
    | cons c rest ih =>
      rw [List.forall_mem_cons] at hrs
      rw [hrs.1, List.cons_append]
      show [] :: fields (· = '/') (rest ++ cs) = _
      rw [ih hrs.2]
      rfl
  have hfields : fields (· = '/') (['/'].intercalate (p.names.map String.toList)) =
      p.names.map String.toList := by
    apply fields_intercalate (by simpa using hne)
    · intro w hw c hc
      obtain ⟨n, hn, rfl⟩ := List.mem_map.1 hw
      exact decide_eq_false ((hp.names n hn).2.2 c hc)
    · rfl
  unfold namesOf
  rw [toList_text hne, hslash _ _ hp.root, hfields, List.map_append, List.map_replicate,
    List.map_map, String.length_toList]
  have hid : String.ofList ∘ String.toList = id := funext fun s => String.ofList_toList
  rw [hid, List.map_id]

/-- A path is absolute if its root is not empty. -/
theorem startsWith_text (hp : p.Normal) (hne : p.names ≠ []) :
    p.text.startsWith "/" = true ↔ p.root.toList ≠ [] := by
  rw [String.startsWith_string_iff, toList_text hne]
  show ['/'] <+: _ ↔ _
  have hroot := hp.root
  cases hrs : p.root.toList with
  | cons c rest =>
    rw [hrs, List.forall_mem_cons] at hroot
    rw [hroot.1, List.cons_append, List.cons_prefix_cons]
    simp
  | nil =>
    obtain ⟨n, rest, hnames⟩ := List.exists_cons_of_ne_nil hne
    obtain ⟨hempty, -, hslash⟩ := hp.names n (by rw [hnames]; exact List.mem_cons_self)
    obtain ⟨c, cs, hc⟩ := List.exists_cons_of_ne_nil (fun h => hempty (String.toList_eq_nil_iff.1 h))
    rw [hc, List.forall_mem_cons] at hslash
    rw [hnames, List.map_cons, hc, List.nil_append, List.intercalate_cons_cons_left,
      List.cons_prefix_cons]
    exact ⟨fun h => absurd h.1.symm hslash.1, fun h => absurd rfl h⟩

theorem hasNull_eq_false_iff (path : String) :
    hasNull path = false ↔ ∀ c ∈ path.toList, c ≠ Char.ofNat 0 := by
  unfold hasNull
  rw [Bool.eq_false_iff, ne_eq, List.contains_iff_mem]
  exact ⟨fun h c hc he => h (he ▸ hc), fun h hmem => h _ hmem rfl⟩

/-- The solution of a problem has no null character if the problem has none. -/
theorem hasNull_solution (hsol : p.solution = .ok sol) (h : hasNull p.text = false) :
    hasNull sol.text = false := by
  obtain ⟨dir, name, hnames, rfl⟩ := exists_of_solution hsol
  rw [hasNull_eq_false_iff, toList_text (by simp [hnames]), List.forall_mem_append] at h
  obtain ⟨hroot, hall⟩ := h
  have hword : ∀ n ∈ dir ++ [name], ∀ c ∈ n.toList, c ≠ Char.ofNat 0 := by
    intro n hn c hc
    exact hall c (subset_intercalate _ (hnames ▸ List.mem_map_of_mem hn) hc)
  rw [List.forall_mem_append, List.forall_mem_singleton] at hword
  rw [hasNull_eq_false_iff, toList_text (by simp), List.forall_mem_append]
  refine ⟨hroot, forall_mem_intercalate (by simp) ?_⟩
  rw [List.forall_mem_map, List.forall_mem_append, List.forall_mem_singleton]
  refine ⟨hword.1, ?_⟩
  rw [String.toList_append, List.forall_mem_append]
  exact ⟨fun c hc => hword.2 c (stem_subset name hc), by simp⟩

end Path

namespace World

variable {w : World} {path : String}

theorem place_of_walk_nil {p : Place} {l : Located} (h : w.walk p [] = .ok l) : l.place = p := by
  unfold walk at h
  split at h
  · cases h
    rfl
  · cases h

/-- The last name of a walk is taken from a directory. -/
theorem exists_walk_dir {p : Place} {names : List String} {name : String} {l : Located}
    (hempty : name ≠ "") (hdot : name ≠ ".") (h : w.walk p (names ++ [name]) = .ok l) :
    ∃ d, w.walk p names = .ok (.found d .directory) ∧
      (l.place = name :: d ∨ name = ".." ∧ l.place = d.tail) := by
  induction names generalizing p with
  | nil =>
    by_cases hdir : entry? w p = some .directory
    · refine ⟨p, by rw [walk, hdir], ?_⟩
      rw [List.nil_append, walk_cons hdir, if_neg (by simp [hempty, hdot])] at h
      split at h
      · rename_i hup
        exact Or.inr ⟨hup, place_of_walk_nil h⟩
      split at h
      · cases h
      split at h
      · exact Or.inl (place_of_walk_nil h)
      · cases h
        exact Or.inl rfl
    · rw [List.nil_append, walk_cons_of_not_directory hdir] at h
      cases h
  | cons n rest ih =>
    by_cases hdir : entry? w p = some .directory
    · rw [List.cons_append, walk_cons hdir] at h
      rw [walk_cons hdir]
      split at h
      · rename_i hsame
        rw [if_pos hsame]
        exact ih h
      rename_i hsame
      rw [if_neg hsame]
      split at h
      · rename_i hup
        rw [if_pos hup]
        exact ih h
      rename_i hup
      rw [if_neg hup]
      split at h
      · cases h
      rename_i hlong
      rw [if_neg hlong]
      split at h
      · rename_i hnext
        rw [if_pos hnext]
        exact ih h
      · split at h
        · rename_i hnil
          simp at hnil
        · cases h
    · rw [List.cons_append, walk_cons_of_not_directory hdir] at h
      cases h

/-- Where the walk to a path begins. -/
def start (w : World) (p : Path) : Place := if p.root.toList = [] then w.workingDirectory else []

theorem start_eq {p : Path} (hp : p.Normal) (hne : p.names ≠ []) :
    (if p.text.startsWith "/" then [] else w.workingDirectory) = w.start p := by
  have hiff := Path.startsWith_text hp hne
  unfold start
  by_cases hroot : p.root.toList = []
  · rw [if_pos hroot, if_neg (fun h => hiff.1 h hroot)]
  · rw [if_neg hroot, if_pos (hiff.2 hroot)]

theorem exists_dir_of_leads {p : Path} {P : Place} {dir : List String} {name : String}
    (hp : p.Normal) (hnames : p.names = dir ++ [name]) (h : w.Leads p.text P) :
    ∃ d, w.walk (w.start p) (List.replicate p.root.length "" ++ dir) = .ok (.found d .directory) ∧
      (P = name :: d ∨ name = ".." ∧ P = d.tail) := by
  have hne : p.names ≠ [] := by simp [hnames]
  obtain ⟨hempty, hdot, -⟩ := hp.names name (by simp [hnames])
  obtain ⟨-, l, hl, rfl⟩ := h
  unfold locate locateNames at hl
  split at hl
  · cases hl
  split at hl
  · cases hl
  rw [start_eq hp hne, Path.namesOf_text hp hne, hnames, ← List.append_assoc] at hl
  exact exists_walk_dir hempty hdot hl

/-- A problem and its solution are walked to from one directory, and end at different places
if the problem is not named as a solution. -/
theorem solution_place_ne {p sol : Path} {P Q : Place} (hp : p.Normal)
    (hsol : p.solution = .ok sol) (hsuffix : ¬ ".sol".toList <:+ p.text.toList)
    (hP : w.Leads p.text P) (hQ : w.Leads sol.text Q) : P ≠ Q := by
  have hnormal := hp.solution hsol
  obtain ⟨dir, name, hnames, rfl⟩ := Path.exists_of_solution hsol
  have hother : Path.stem name ++ ".sol" ≠ name := by
    intro heq
    apply hsuffix
    have hname : ".sol".toList <:+ name.toList := by
      rw [← heq, String.toList_append]
      exact List.suffix_append _ _
    rw [Path.toList_text (by simp [hnames]), hnames, List.map_append, List.map_singleton]
    exact (hname.trans (suffix_intercalate _ _ _)).trans (List.suffix_append _ _)
  obtain ⟨d, hd, hPd⟩ := exists_dir_of_leads hp hnames hP
  obtain ⟨d', hd', hQd⟩ := exists_dir_of_leads hnormal rfl hQ
  have hdir : d = d' := by
    rw [show w.start ⟨p.root, dir ++ [Path.stem name ++ ".sol"]⟩ = w.start p from rfl, hd] at hd'
    cases hd'
    rfl
  subst hdir
  have hQd := hQd.resolve_right fun h => Path.stem_ne_up name h.1
  rintro rfl
  rcases hPd with hPd | ⟨-, hPd⟩
  · rw [hQd] at hPd
    exact hother (List.cons.inj hPd).1
  · have hlength := congrArg List.length (hQd.symm.trans hPd)
    rw [List.length_cons, List.length_tail] at hlength
    omega

end World

end FactorSearch
