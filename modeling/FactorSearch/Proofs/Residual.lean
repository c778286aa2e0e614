import FactorSearch.Proofs.Descent
import Mathlib.Data.List.Induction

/-!
What a path leaves of the clauses it starts from. A path gives a sign to each of its
variables, that of the first literal on it. If no clause were ever cut off, a path would
leave the clauses without a true literal, less their false literals, and this list depends
on the signs alone. A node holds a beginning of it, and all of it unless a clause has been
emptied; so paths of equal signs reach nodes that differ at most in how much of a
contradiction they still show.
-/

namespace FactorSearch

open Restriction PureLiterals

/-- The sign of each variable that has one. -/
abbrev Signs := Int → Option Bool

namespace Signs

/-- The signs along a path; a variable keeps its first one. -/
def ofPath (ls : List Literal) : Signs := fun v =>
  (ls.find? (fun l => l.var == v)).map Literal.positive

/-- Signs completed by other ones where they are open. -/
def refine (s t : Signs) : Signs := fun v => (s v).or (t v)

def isTrue (s : Signs) (l : Literal) : Bool := s l.var == some l.positive

def isFalse (s : Signs) (l : Literal) : Bool := s l.var == some (!l.positive)

/-- Some literal of the clause is true. -/
def satisfies (s : Signs) (c : Clause) : Bool := c.literals.any s.isTrue

/-- All literals of the clause are false; an empty clause has none that is not. -/
def falsifies (s : Signs) (c : Clause) : Bool := c.literals.all s.isFalse

/-- The clause without its false literals. -/
def reduce (s : Signs) (c : Clause) : Clause :=
  ⟨c.literals.filter (fun l => !s.isFalse l), Clause.nodup_filter _ c.nodup_vars⟩

/-- The clauses without a true literal, less their false literals. -/
def residual (s : Signs) (cs : List Clause) : List Clause :=
  (cs.filter (fun c => !s.satisfies c)).map s.reduce

theorem ofPath_append (ls ms : List Literal) :
    ofPath (ls ++ ms) = (ofPath ls).refine (ofPath ms) := by
  funext v
  simp only [ofPath, refine, List.find?_append, Option.map_or]

theorem ofPath_singleton (l : Literal) (v : Int) :
    ofPath [l] v = if l.var = v then some l.positive else none := by
  by_cases hv : l.var = v <;> simp [ofPath, hv]

variable {s t : Signs} {c : Clause} {l : Literal}

theorem not_isFalse_of_isTrue (h : s.isTrue l = true) : s.isFalse l = false := by
  simp only [isTrue, beq_iff_eq] at h
  simp [isFalse, h]

theorem isTrue_refine : (s.refine t).isTrue l = (s.isTrue l || (!s.isFalse l && t.isTrue l)) := by
  unfold isTrue isFalse refine
  cases s l.var with
  | none => rfl
  | some p => cases p <;> cases l.positive <;> rfl

theorem isFalse_refine_of_not_isTrue (h : s.isTrue l = false) :
    (s.refine t).isFalse l = (s.isFalse l || t.isFalse l) := by
  unfold isTrue at h
  unfold isFalse refine
  cases hs : s l.var with
  | none => rfl
  | some p =>
    rw [hs] at h
    cases p <;> cases hl : l.positive <;> simp_all

/-- A clause keeps its own true literals, so one that is true already stays true. -/
theorem satisfies_refine :
    (s.refine t).satisfies c = (s.satisfies c || t.satisfies (s.reduce c)) := by
  rw [Bool.eq_iff_iff]
  simp only [satisfies, reduce, Bool.or_eq_true, List.any_eq_true, List.mem_filter,
    isTrue_refine, Bool.and_eq_true]
  constructor
  · rintro ⟨l, hl, hs | ⟨hkeep, ht⟩⟩
    · exact Or.inl ⟨l, hl, hs⟩
    · exact Or.inr ⟨l, ⟨hl, hkeep⟩, ht⟩
  · rintro (⟨l, hl, hs⟩ | ⟨l, ⟨hl, hkeep⟩, ht⟩)
    · exact ⟨l, hl, Or.inl hs⟩
    · exact ⟨l, hl, Or.inr ⟨hkeep, ht⟩⟩

theorem reduce_refine (h : s.satisfies c = false) :
    t.reduce (s.reduce c) = (s.refine t).reduce c := by
  simp only [reduce, Clause.mk.injEq, List.filter_filter]
  apply List.filter_congr
  intro l hl
  have hopen : s.isTrue l = false := by
    simp only [satisfies, List.any_eq_false] at h
    simpa using h l hl
  rw [isFalse_refine_of_not_isTrue hopen, Bool.not_or, Bool.and_comm]

theorem residual_cons (s : Signs) (c : Clause) (rest : List Clause) :
    s.residual (c :: rest) =
      if s.satisfies c then s.residual rest else s.reduce c :: s.residual rest := by
  cases hs : s.satisfies c <;> simp [residual, hs]

/-- Residuals compose: what later signs leave of a residual is what both leave together. -/
theorem residual_refine (s t : Signs) (cs : List Clause) :
    (s.refine t).residual cs = t.residual (s.residual cs) := by
  induction cs with
  | nil => rfl
  | cons c rest ih =>
    rw [residual_cons, residual_cons, satisfies_refine, ih]
    cases hs : s.satisfies c with
    | true => rfl
    | false =>
      simp only [Bool.false_or, Bool.false_eq_true, if_false, residual_cons, reduce_refine hs]

theorem residual_ofPath_nil (cs : List Clause) : (ofPath []).residual cs = cs := by
  have hreduce : ∀ c : Clause, (ofPath []).reduce c = c := by
    intro c
    simp [reduce, isFalse, ofPath]
  induction cs with
  | nil => rfl
  | cons c rest ih =>
    have hopen : (ofPath []).satisfies c = false := by simp [satisfies, isTrue, ofPath]
    rw [residual_cons, hopen, if_neg (by decide), hreduce, ih]

theorem residual_mono (s : Signs) {cs ds : List Clause} (h : cs <+: ds) :
    s.residual cs <+: s.residual ds := (h.filter _).map _

theorem isEmpty_reduce : (s.reduce c).isEmpty = s.falsifies c := by
  rw [Bool.eq_iff_iff]
  simp [reduce, Clause.isEmpty, falsifies]

theorem not_satisfies_of_falsifies (h : s.falsifies c = true) : s.satisfies c = false := by
  simp only [falsifies, List.all_eq_true] at h
  simp only [satisfies, List.any_eq_false]
  intro l hl htrue
  have hfalse := not_isFalse_of_isTrue htrue
  rw [h l hl] at hfalse
  exact absurd hfalse (by decide)

theorem any_isEmpty_residual (s : Signs) (cs : List Clause) :
    (s.residual cs).any Clause.isEmpty = true ↔ ∃ c ∈ cs, s.falsifies c = true := by
  simp only [residual, List.any_map, List.any_filter, List.any_eq_true, Function.comp_apply,
    isEmpty_reduce, Bool.and_eq_true]
  constructor
  · rintro ⟨c, hc, -, hfalse⟩
    exact ⟨c, hc, hfalse⟩
  · rintro ⟨c, hc, hfalse⟩
    exact ⟨c, hc, by rw [not_satisfies_of_falsifies hfalse]; rfl, hfalse⟩

theorem falsifies_of_isEmpty (h : c.isEmpty = true) : s.falsifies c = true := by
  simp only [Clause.isEmpty, List.isEmpty_iff] at h
  simp [falsifies, h]

/-- An empty clause is never true, so it stays. -/
theorem not_any_isEmpty_of_residual {cs : List Clause}
    (h : (s.residual cs).any Clause.isEmpty = false) : cs.any Clause.isEmpty = false := by
  by_contra hempty
  rw [Bool.not_eq_false, List.any_eq_true] at hempty
  obtain ⟨c, hc, hce⟩ := hempty
  have hstays := (any_isEmpty_residual s cs).2 ⟨c, hc, falsifies_of_isEmpty hce⟩
  exact absurd (hstays.symm.trans h) (by decide)

theorem residual_eq_nil_iff (s : Signs) (cs : List Clause) :
    s.residual cs = [] ↔ ∀ c ∈ cs, s.satisfies c = true := by
  simp [residual, List.filter_eq_nil_iff]

/-- The sign of one literal decides a clause by its polarity there. -/
theorem satisfies_singleton :
    (ofPath [l]).satisfies c = (c.polarity? l.var == some l.positive) := by
  rw [Bool.eq_iff_iff, beq_iff_eq]
  simp only [satisfies, List.any_eq_true, isTrue, ofPath_singleton, beq_iff_eq]
  constructor
  · rintro ⟨m, hm, hsign⟩
    split at hsign
    · rename_i hvar
      rw [hvar, Clause.polarity?_of_mem hm, hsign]
    · simp at hsign
  · intro h
    obtain ⟨m, hm, hvar, hpos⟩ := Clause.mem_of_polarity? h
    exact ⟨m, hm, by rw [if_pos hvar.symm, hpos]⟩

theorem reduce_singleton (h : (ofPath [l]).satisfies c = false) :
    (ofPath [l]).reduce c = c.without l.var := by
  simp only [reduce, Clause.without, Clause.mk.injEq]
  apply List.filter_congr
  intro m hm
  simp only [satisfies, List.any_eq_false] at h
  have hopen := h m hm
  simp only [isTrue, isFalse, ofPath_singleton] at hopen ⊢
  by_cases hvar : l.var = m.var
  · cases hl : l.positive <;> cases hp : m.positive <;> simp_all
  · simp [hvar, Ne.symm hvar]

/-- A beginning of a list of clauses, which is all of it unless it holds an empty clause. -/
structure Beginning (cs full : List Clause) : Prop where
  before : cs <+: full
  whole : cs.any Clause.isEmpty = false → cs = full

namespace Beginning

variable {cs ds full : List Clause} {c : Clause}

theorem refl (cs : List Clause) : Beginning cs cs := ⟨List.prefix_rfl, fun _ => rfl⟩

theorem cons (c : Clause) (h : Beginning cs full) : Beginning (c :: cs) (c :: full) where
  before := (List.prefix_cons_inj c).2 h.before
  whole hfull := by
    rw [List.any_cons, Bool.or_eq_false_iff] at hfull
    rw [h.whole hfull.2]

theorem of_isEmpty (hc : c.isEmpty = true) (full : List Clause) : Beginning [c] (c :: full) where
  before := ⟨full, rfl⟩
  whole hfull := by simp [hc] at hfull

/-- Signs may be given to a beginning in place of the list: an empty clause stays. -/
theorem residual {s : Signs} (h : Beginning ds full) (h' : Beginning cs (s.residual ds)) :
    Beginning cs (s.residual full) where
  before := h'.before.trans (residual_mono s h.before)
  whole hcs := by
    have heq := h'.whole hcs
    have hds : ds.any Clause.isEmpty = false := by
      rw [heq] at hcs
      exact not_any_isEmpty_of_residual hcs
    rw [heq, h.whole hds]

end Beginning

/-- Restriction leaves the residual of its literal, up to the first clause it empties. -/
theorem beginning_restrict (l : Literal) (cs : List Clause) :
    Beginning (restrict l cs) ((ofPath [l]).residual cs) := by
  induction cs with
  | nil => exact Beginning.refl _
  | cons c rest ih =>
    rw [residual_cons]
    simp only [restrict]
    split
    · rename_i hp
      have hopen : (ofPath [l]).satisfies c = false := by rw [satisfies_singleton, hp]; rfl
      have hvar := (Clause.polarity?_eq_none_iff c l.var).1 hp
      rw [hopen, if_neg Bool.false_ne_true, reduce_singleton hopen, Clause.without_eq_self hvar]
      exact ih.cons c
    · rename_i p hp
      by_cases hpos : p = l.positive
      · have htrue : (ofPath [l]).satisfies c = true := by simp [satisfies_singleton, hp, hpos]
        rw [if_pos hpos, htrue, if_pos rfl]
        exact ih
      · have hopen : (ofPath [l]).satisfies c = false := by simp [satisfies_singleton, hp, hpos]
        rw [if_neg hpos, hopen, if_neg Bool.false_ne_true, reduce_singleton hopen]
        split
        · rename_i hempty
          exact Beginning.of_isEmpty hempty _
        · exact ih.cons _

end Signs

open Signs

namespace Node

/-- A node holds a beginning of the residual of what was fixed above it. -/
theorem beginning_fixAll (n : Node) (ls : List Literal) :
    Beginning (fixAll n ls).clauses ((ofPath ls).residual n.clauses) := by
  induction ls using List.reverseRec with
  | nil =>
    rw [residual_ofPath_nil]
    exact Beginning.refl _
  | append_singleton ls l ih =>
    rw [ofPath_append, residual_refine, fixAll_append]
    exact ih.residual (beginning_restrict l _)

variable {n : Node} {ls : List Literal}

theorem contradiction_fixAll_iff :
    (fixAll n ls).contradiction = true ↔ ∃ c ∈ n.clauses, (ofPath ls).falsifies c = true := by
  have h := n.beginning_fixAll ls
  rw [← any_isEmpty_residual]
  constructor
  · intro hempty
    obtain ⟨c, hc, hce⟩ := List.any_eq_true.1 hempty
    exact List.any_eq_true.2 ⟨c, h.before.subset hc, hce⟩
  · intro hempty
    by_contra hfull
    rw [Bool.not_eq_true] at hfull
    rw [← h.whole hfull] at hempty
    exact absurd (hempty.symm.trans hfull) (by decide)

theorem satisfied_fixAll_iff :
    (fixAll n ls).satisfied = true ↔ ∀ c ∈ n.clauses, (ofPath ls).satisfies c = true := by
  have h := n.beginning_fixAll ls
  rw [← residual_eq_nil_iff, Node.satisfied, List.isEmpty_iff]
  constructor
  · intro hnil
    rw [← h.whole (by rw [hnil]; rfl), hnil]
  · intro hnil
    exact List.prefix_nil.1 (hnil ▸ h.before)

end Node

/-- A node is its root under the signs of its path. It shows a contradiction exactly if the
signs falsify a clause of the root, and it is satisfied exactly if they satisfy all of them.
Without a contradiction its clauses are the residual of the root; with one they are a
beginning of it that holds an empty clause. So no variable of the path occurs any more, a
contradiction stays below, and paths of equal signs lead to the same flags and, without a
contradiction, to the same clauses. -/
theorem node_eq_residual (sources : List ClauseSource) (ls : List Literal) :
    let root := Node.ofSources sources
    let n := fixAll root ls
    let s := Signs.ofPath ls
    (n.contradiction = true ↔ ∃ c ∈ root.clauses, s.falsifies c = true) ∧
    (n.satisfied = true ↔ ∀ c ∈ root.clauses, s.satisfies c = true) ∧
    (n.contradiction = false → n.clauses = s.residual root.clauses) ∧
    (n.contradiction = true →
      n.clauses <+: s.residual root.clauses ∧ ∃ c ∈ n.clauses, c.isEmpty = true) ∧
    (∀ l ∈ ls, l.var ∉ n.vars) ∧
    (n.contradiction = true → ∀ ms, (fixAll n ms).contradiction = true) ∧
    ∀ ms, Signs.ofPath ms = s →
      let m := fixAll root ms
      m.contradiction = n.contradiction ∧ m.satisfied = n.satisfied ∧
        (n.contradiction = false → m.clauses = n.clauses) := by
  intro root n s
  have hbegins := root.beginning_fixAll ls
  have hwhole : n.contradiction = false → n.clauses = s.residual root.clauses := hbegins.whole
  refine ⟨Node.contradiction_fixAll_iff, Node.satisfied_fixAll_iff, hwhole, ?_, ?_, ?_, ?_⟩
  · intro hc
    exact ⟨hbegins.before, List.any_eq_true.1 hc⟩
  · intro l hl hv
    exact (Node.mem_vars_fixAll hv).2 (List.mem_map_of_mem hl)
  · intro hc ms
    obtain ⟨c, hmem, hempty⟩ := List.any_eq_true.1 hc
    exact Node.contradiction_fixAll_iff.2 ⟨c, hmem, falsifies_of_isEmpty hempty⟩
  · intro ms hms m
    have hcontra : m.contradiction = n.contradiction := by
      rw [Bool.eq_iff_iff, Node.contradiction_fixAll_iff, Node.contradiction_fixAll_iff, hms]
    have hsat : m.satisfied = n.satisfied := by
      rw [Bool.eq_iff_iff, Node.satisfied_fixAll_iff, Node.satisfied_fixAll_iff, hms]
    refine ⟨hcontra, hsat, fun hc => ?_⟩
    have hm : m.clauses = (Signs.ofPath ms).residual root.clauses :=
      (root.beginning_fixAll ms).whole (hcontra.trans hc)
    rw [hm, hms, hwhole hc]

end FactorSearch
