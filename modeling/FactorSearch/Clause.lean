import FactorSearch.Literal

/-!
Disjunctions of literals over distinct variables, in order of insertion. A
literal that meets its own negation cancels it, and both vanish. Two clauses
are the same when they hold the same literals, whatever the order.
-/

namespace FactorSearch

structure Clause where
  literals : List Literal
  nodup_vars : (literals.map Literal.var).Nodup

namespace Clause

def empty : Clause := ⟨[], List.nodup_nil⟩

def size (c : Clause) : Nat := c.literals.length

def isEmpty (c : Clause) : Bool := c.literals.isEmpty

def isUnit (c : Clause) : Bool := c.size == 1

def vars (c : Clause) : List Int := c.literals.map Literal.var

def first? (c : Clause) : Option Literal := c.literals.head?

def polarity? (c : Clause) (v : Int) : Option Bool :=
  (c.literals.find? (fun l => l.var == v)).map Literal.positive

def contains (c : Clause) (v : Int) : Bool := (c.polarity? v).isSome

theorem nodup_filter (keep : Literal → Bool) {ls : List Literal}
    (h : (ls.map Literal.var).Nodup) : ((ls.filter keep).map Literal.var).Nodup :=
  h.sublist (List.filter_sublist.map _)

def without (c : Clause) (v : Int) : Clause :=
  ⟨c.literals.filter (fun l => l.var != v), nodup_filter _ c.nodup_vars⟩

theorem mem_vars {c : Clause} {v : Int} : v ∈ c.vars ↔ ∃ l ∈ c.literals, l.var = v := List.mem_map

theorem isEmpty_eq_false_iff {c : Clause} : c.isEmpty = false ↔ ∃ l, l ∈ c.literals :=
  List.isEmpty_eq_false_iff_exists_mem

theorem polarity?_eq_none_iff (c : Clause) (v : Int) :
    c.polarity? v = none ↔ v ∉ c.vars := by
  simp [polarity?, vars, List.find?_eq_none]

theorem mem_of_polarity? {c : Clause} {v : Int} {p : Bool} (h : c.polarity? v = some p) :
    ∃ l ∈ c.literals, l.var = v ∧ l.positive = p := by
  simp only [polarity?, Option.map_eq_some_iff] at h
  obtain ⟨l, hl, hp⟩ := h
  have hv := List.find?_some hl
  exact ⟨l, List.mem_of_find?_eq_some hl, by simpa using hv, hp⟩

theorem nodup_append {c : Clause} {l : Literal} (h : c.polarity? l.var = none) :
    ((c.literals ++ [l]).map Literal.var).Nodup := by
  rw [polarity?_eq_none_iff] at h
  rw [List.map_append, List.nodup_append]
  refine ⟨c.nodup_vars, by simp, ?_⟩
  intro x hx y hy
  simp only [List.map_cons, List.map_nil, List.mem_singleton] at hy
  subst hy
  intro e
  exact h (e ▸ hx)

/-- Insert a literal: a new variable goes to the end, a repeated literal changes
nothing, and an opposite literal is removed together with the new one. -/
def insert (c : Clause) (l : Literal) : Clause :=
  match h : c.polarity? l.var with
  | none => ⟨c.literals ++ [l], nodup_append h⟩
  | some p => if p = l.positive then c else c.without l.var

def ofLiterals (ls : List Literal) : Clause := ls.foldl insert empty

def ofInts (ns : List Int) : Except LiteralError Clause :=
  ofLiterals <$> ns.mapM Literal.ofInt

/-- Both clauses hold the same literals. -/
def same (c d : Clause) : Bool :=
  c.literals.all (fun l => decide (l ∈ d.literals)) &&
    d.literals.all (fun l => decide (l ∈ c.literals))

theorem same_iff (c d : Clause) :
    c.same d = true ↔ ∀ l, l ∈ c.literals ↔ l ∈ d.literals := by
  simp only [same, Bool.and_eq_true, List.all_eq_true, decide_eq_true_eq]
  exact ⟨fun h l => ⟨h.1 l, h.2 l⟩, fun h => ⟨fun l => (h l).1, fun l => (h l).2⟩⟩

theorem literals_insert (c : Clause) (l : Literal) :
    (c.insert l).literals =
      match c.polarity? l.var with
      | none => c.literals ++ [l]
      | some p => if p = l.positive then c.literals else (c.without l.var).literals := by
  unfold insert
  split <;> rename_i h <;> simp only [h]
  split <;> rfl

/-- A literal of a clause is the only one on its variable. -/
theorem polarity?_of_mem {c : Clause} {l : Literal} (h : l ∈ c.literals) :
    c.polarity? l.var = some l.positive := by
  obtain ⟨ls, hnd⟩ := c
  simp only at h
  simp only [polarity?]
  induction ls with
  | nil => simp at h
  | cons m rest ih =>
    simp only [List.map_cons, List.nodup_cons] at hnd
    rcases List.mem_cons.1 h with rfl | hr
    · simp
    · have hne : (m.var == l.var) = false := by
        simp only [beq_eq_false_iff_ne, ne_eq]
        intro e
        exact hnd.1 (e ▸ List.mem_map_of_mem hr)
      simp only [List.find?_cons, hne]
      exact ih hnd.2 hr

def text (c : Clause) : String := "\x7b" ++ ", ".intercalate (c.literals.map Literal.text) ++ "\x7d"

def describe (c : Clause) : String := "Clause(" ++ c.text ++ ")"

/-- The clauses of a list without later repetitions of the same clause. -/
def distinct : List Clause → List Clause
  | [] => []
  | c :: rest => c :: (distinct rest).filter (fun d => !c.same d)

theorem distinct_pairwise (cs : List Clause) :
    (distinct cs).Pairwise (fun c d => c.same d = false) := by
  induction cs with
  | nil => exact List.Pairwise.nil
  | cons c rest ih =>
    simp only [distinct, List.pairwise_cons]
    refine ⟨?_, ih.filter _⟩
    intro d hd
    have := (List.mem_filter.1 hd).2
    simpa using this

end Clause

end FactorSearch
