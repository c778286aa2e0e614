import FactorSearch.Proofs.Residual

/-!
Nodes with given clauses. The clauses of a root are all different, but below it any list of
non-empty clauses can be left, in any order and with repetitions: give each clause a literal
of its own on a new variable, start from these, and make the new literals false.
-/

namespace FactorSearch

open Restriction PureLiterals

namespace Signs

variable {s : Signs} {c : Clause} {cs : List Clause}

/-- A clause without a sign stays as it is. -/
theorem residual_cons_of_open (h : ∀ l ∈ c.literals, s l.var = none) :
    s.residual (c :: cs) = c :: s.residual cs := by
  have hopen : s.satisfies c = false := by
    simp only [satisfies, List.any_eq_false, isTrue]
    intro l hl
    rw [h l hl]
    exact Bool.false_ne_true
  have hkeep : c.literals.filter (fun l => !s.isFalse l) = c.literals := by
    rw [List.filter_eq_self]
    intro l hl
    simp only [isFalse, h l hl]
    rfl
  have hreduce : s.reduce c = c := by
    obtain ⟨ls, hnd⟩ := c
    simp only [reduce, Clause.mk.injEq]
    exact hkeep
  rw [residual_cons, hopen, if_neg Bool.false_ne_true, hreduce]

theorem residual_of_open (h : ∀ c ∈ cs, ∀ l ∈ c.literals, s l.var = none) :
    s.residual cs = cs := by
  induction cs with
  | nil => rfl
  | cons c rest ih =>
    rw [List.forall_mem_cons] at h
    rw [residual_cons_of_open h.1, ih h.2]

end Signs

open Signs

namespace Clause

/-- The literal on the variable after the given number. -/
def mark (x : ℕ) (positive : Bool) : Literal := ⟨x + 1, positive, by omega⟩

/-- The clauses, each with a positive literal of its own. -/
def marked (x : ℕ) : List Clause → List Clause
  | [] => []
  | c :: rest => c.insert (mark x true) :: marked (x + 1) rest

/-- The negations of the literals that clauses are marked with. -/
def unmarking (x : ℕ) : List Clause → List Literal
  | [] => []
  | _ :: rest => mark x false :: unmarking (x + 1) rest

/-- No variable of the clauses exceeds the number. -/
def Below (x : ℕ) (cs : List Clause) : Prop := ∀ c ∈ cs, ∀ l ∈ c.literals, l.var ≤ x

theorem exists_below (cs : List Clause) : ∃ x, Below x cs := by
  have hbound : ∀ ls : List Literal, ∃ x : ℕ, ∀ l ∈ ls, l.var ≤ x := by
    intro ls
    induction ls with
    | nil => exact ⟨0, List.forall_mem_nil _⟩
    | cons l rest ih =>
      obtain ⟨x, hx⟩ := ih
      refine ⟨x + l.var.natAbs, List.forall_mem_cons.2 ⟨by omega, fun m hm => ?_⟩⟩
      have hle := hx m hm
      omega
  obtain ⟨x, hx⟩ := hbound (cs.flatMap literals)
  exact ⟨x, fun c hc l hl => hx l (List.mem_flatMap.2 ⟨c, hc, hl⟩)⟩

variable {x y : ℕ} {c d : Clause} {cs : List Clause}

theorem Below.mono (h : Below x cs) (hxy : x ≤ y) : Below y cs := by
  intro c hc l hl
  have hle := h c hc l hl
  omega

theorem literals_mark (h : ∀ l ∈ c.literals, l.var ≤ x) :
    (c.insert (mark x true)).literals = c.literals ++ [mark x true] := by
  have hnew : c.polarity? (mark x true).var = none := by
    rw [polarity?_eq_none_iff]
    intro hmem
    obtain ⟨l, hl, hvar⟩ := List.mem_map.1 hmem
    have hle := h l hl
    have hx : (mark x true).var = x + 1 := rfl
    omega
  rw [literals_insert, hnew]

theorem without_mark (h : ∀ l ∈ c.literals, l.var ≤ x) :
    (c.insert (mark x true)).without (mark x false).var = c := by
  have hkeep : (c.insert (mark x true)).literals.filter (fun l => l.var != (mark x false).var) =
      c.literals := by
    rw [literals_mark h, List.filter_append, List.filter_eq_self.2, List.filter_cons_of_neg]
    · exact List.append_nil _
    · simp [mark]
    · intro l hl
      have hle := h l hl
      have hx : (mark x false).var = x + 1 := rfl
      rw [bne_iff_ne]
      omega
  obtain ⟨ls, hnd⟩ := c
  simp only [without, Clause.mk.injEq]
  exact hkeep

/-- The variables of marked clauses are those of the clauses and the new ones. -/
theorem var_of_mem_marked (h : Below x cs) (hd : d ∈ marked y cs) (hxy : x ≤ y) :
    ∀ l ∈ d.literals, l.var ≤ x ∨ (y : Int) < l.var := by
  induction cs generalizing y with
  | nil => exact absurd hd List.not_mem_nil
  | cons c rest ih =>
    have hbelow := List.forall_mem_cons.1 h
    have hc := (List.forall_mem_cons.1 (h.mono hxy)).1
    intro l hl
    rcases List.mem_cons.1 hd with rfl | hrest
    · rw [literals_mark hc, List.mem_append, List.mem_singleton] at hl
      rcases hl with hl | rfl
      · exact Or.inl (hbelow.1 l hl)
      · right
        show (y : Int) < y + 1
        omega
    · have hcases := ih hbelow.2 hrest (by omega) l hl
      omega

theorem notMem_mark (h : Below x cs) (hd : d ∈ marked (y + 1) cs) (hxy : x ≤ y) :
    ∀ l ∈ d.literals, l.var ≠ y + 1 := by
  intro l hl
  have hcases := var_of_mem_marked h hd (by omega) l hl
  omega

/-- The marks tell all clauses apart. -/
theorem marked_pairwise (h : Below x cs) (hxy : x ≤ y) :
    (marked y cs).Pairwise (fun c d => c.same d = false) := by
  induction cs generalizing y with
  | nil => exact List.Pairwise.nil
  | cons c rest ih =>
    have hbelow := List.forall_mem_cons.1 h
    have hc := (List.forall_mem_cons.1 (h.mono hxy)).1
    rw [marked, List.pairwise_cons]
    refine ⟨fun d hd => ?_, ih hbelow.2 (by omega)⟩
    rw [← Bool.not_eq_true, same_iff]
    intro hsame
    have hmark : mark y true ∈ d.literals := by
      rw [← hsame, literals_mark hc]
      exact List.mem_append_right _ (List.mem_singleton_self _)
    exact notMem_mark hbelow.2 hd hxy _ hmark rfl

theorem unmarking_open (cs : List Clause) (hxy : x ≤ y) {v : Int} (hv : v ≤ x) :
    ofPath (unmarking y cs) v = none := by
  induction cs generalizing y with
  | nil => rfl
  | cons c rest ih =>
    have hne : ((mark y false).var == v) = false := by
      have hy : (mark y false).var = y + 1 := rfl
      rw [beq_eq_false_iff_ne]
      omega
    have hrest := ih (y := y + 1) (by omega)
    unfold ofPath at hrest ⊢
    rw [unmarking, List.find?_cons, hne]
    exact hrest

/-- Taking the marks back leaves the clauses themselves. -/
theorem residual_marked (h : Below x cs) (hxy : x ≤ y) :
    (ofPath (unmarking y cs)).residual (marked y cs) = cs := by
  induction cs generalizing y with
  | nil => rfl
  | cons c rest ih =>
    have hbelow := List.forall_mem_cons.1 h
    have hc := (List.forall_mem_cons.1 (h.mono hxy)).1
    have hopen : (ofPath [mark y false]).satisfies (c.insert (mark y true)) = false := by
      have hmark : mark y true ∈ (c.insert (mark y true)).literals := by
        rw [literals_mark hc]
        exact List.mem_append_right _ (List.mem_singleton_self _)
      have hpolarity := polarity?_of_mem hmark
      rw [satisfies_singleton]
      show (polarity? _ (mark y true).var == some false) = false
      rw [hpolarity]
      rfl
    have hfirst : (ofPath [mark y false]).residual (marked y (c :: rest)) =
        c :: marked (y + 1) rest := by
      rw [marked, residual_cons, hopen, if_neg Bool.false_ne_true, reduce_singleton hopen,
        without_mark hc, residual_of_open]
      intro d hd l hl
      rw [ofPath_singleton, if_neg]
      exact fun heq => notMem_mark hbelow.2 hd hxy l hl heq.symm
    have hpath : unmarking y (c :: rest) = [mark y false] ++ unmarking (y + 1) rest := rfl
    rw [hpath, ofPath_append, residual_refine, hfirst, residual_cons_of_open, ih hbelow.2 (by omega)]
    exact fun l hl => unmarking_open rest (by omega) (hbelow.1 l hl)

end Clause

open Clause

/-- Clauses that are not empty are what is left at some node. -/
theorem Node.exists_clauses_eq {cs : List Clause} (h : ∀ c ∈ cs, c.isEmpty = false) :
    ∃ n : Node, n.clauses = cs := by
  obtain ⟨x, hx⟩ := exists_below cs
  let root : Node := ⟨marked x cs, [], marked x cs, marked_pairwise hx (Nat.le_refl x), rfl⟩
  have hbegins := root.beginning_fixAll (unmarking x cs)
  rw [show root.clauses = marked x cs from rfl, residual_marked hx (Nat.le_refl x)] at hbegins
  refine ⟨fixAll root (unmarking x cs), hbegins.whole ?_⟩
  rw [List.any_eq_false]
  intro c hc
  rw [h c (hbegins.before.subset hc)]
  exact Bool.false_ne_true

end FactorSearch
