import FactorSearch.Proofs.Satisfaction

/-!
What the elimination of pure literals leaves. Clauses are free of pure literals when the
negation of each of their literals occurs in them too. A round takes away the clauses that
hold a literal of its batch and changes no other, whatever the order of the batch, since the
negation of a pure literal occurs nowhere. Clauses that are free of pure literals hold none of
the batch, so they survive the round; what remains at the end is therefore the largest part
that is free of them, and it can be satisfied if and only if all clauses can.
-/

namespace FactorSearch

open Restriction

namespace Valuation

/-- Changing a valuation on variables that do not occur changes nothing. -/
theorem satisfies_override_iff {v : Valuation} {ls : List Literal} {cs : List Clause}
    (h : ∀ l ∈ ls, l.var ∉ varsOf cs) : (v.override ls).Satisfies cs ↔ v.Satisfies cs := by
  have hliteral : ∀ c ∈ cs, ∀ m ∈ c.literals, (v.override ls).literal m = v.literal m := by
    intro c hc m hm
    have hopen : m.var ∉ ls.map Literal.var := by
      intro hmem
      obtain ⟨l, hl, hvar⟩ := List.mem_map.1 hmem
      exact h l hl (mem_varsOf.2 ⟨c, hc, hvar ▸ List.mem_map_of_mem hm⟩)
    simp only [literal, override_of_notMem v hopen]
  have hclause : ∀ c ∈ cs, (v.override ls).clause c = v.clause c := by
    intro c hc
    rw [Bool.eq_iff_iff]
    unfold clause
    simp only [List.any_eq_true]
    exact exists_congr fun m => and_congr_right fun hm => by rw [hliteral c hc m hm]
  exact forall₂_congr fun c hc => by rw [hclause c hc]

end Valuation

namespace PureLiterals

/-- Every literal that occurs has its negation occur as well. -/
def PureFree (cs : List Clause) : Prop :=
  ∀ c ∈ cs, ∀ l ∈ c.literals, ∃ d ∈ cs, l.negate ∈ d.literals

instance (cs : List Clause) : Decidable (PureFree cs) :=
  inferInstanceAs (Decidable (∀ c ∈ cs, ∀ l ∈ c.literals, ∃ d ∈ cs, l.negate ∈ d.literals))

/-- The clause holds none of the literals. -/
def avoids (ls : List Literal) (c : Clause) : Bool := ls.all (fun l => decide (l ∉ c.literals))

/-- No clause holds the negation of one of the literals. -/
def Unopposed (ls : List Literal) (cs : List Clause) : Prop :=
  ∀ l ∈ ls, ∀ c ∈ cs, ∀ m ∈ c.literals, m.var = l.var → m = l

variable {n : Node} {l : Literal} {ls : List Literal} {cs ds : List Clause}

theorem unopposed_pureLiterals (cs : List Clause) : Unopposed (pureLiterals cs) cs :=
  fun _ hl _ hc _ hm => eq_of_pure hl hc hm

/-- A literal whose negation occurs nowhere takes clauses away and changes none. -/
theorem restrict_eq_filter (h : ∀ c ∈ cs, ∀ m ∈ c.literals, m.var = l.var → m = l) :
    restrict l cs = cs.filter (avoids [l]) := by
  induction cs with
  | nil => rfl
  | cons c rest ih =>
    rw [List.forall_mem_cons] at h
    obtain ⟨hc, hrest⟩ := h
    simp only [restrict]
    split
    · rename_i hopen
      have havoids : avoids [l] c = true := by
        have hl : l ∉ c.literals := fun hl =>
          (Clause.polarity?_eq_none_iff c l.var).1 hopen (List.mem_map_of_mem hl)
        simpa [avoids] using hl
      rw [List.filter_cons_of_pos havoids, ih hrest]
    · rename_i p hp
      obtain ⟨m, hm, hvar, hpositive⟩ := Clause.mem_of_polarity? hp
      have hml := hc m hm hvar
      rw [hml] at hm hpositive
      have hholds : ¬ avoids [l] c = true := by simpa [avoids] using hm
      rw [if_pos hpositive.symm, List.filter_cons_of_neg hholds, ih hrest]

/-- Together they take away the clauses that hold one of them, in whatever order. -/
theorem clauses_fixAll_eq_filter (h : Unopposed ls n.clauses) :
    (fixAll n ls).clauses = n.clauses.filter (avoids ls) := by
  induction ls generalizing n with
  | nil => exact (List.filter_eq_self.2 fun c _ => rfl).symm
  | cons l rest ih =>
    rw [Unopposed, List.forall_mem_cons] at h
    have hchild : (n.child l).clauses = n.clauses.filter (avoids [l]) := restrict_eq_filter h.1
    have hrest : Unopposed rest (n.child l).clauses := by
      intro m hm c hc
      rw [hchild] at hc
      exact h.2 m hm c (List.mem_filter.1 hc).1
    show (fixAll (n.child l) rest).clauses = _
    rw [ih hrest, hchild, List.filter_filter]
    congr 1
    funext c
    simp only [avoids, List.all_cons, List.all_nil, Bool.and_true]
    exact Bool.and_comm _ _

theorem clauses_round (h : pureLiterals n.clauses = ls) :
    (fixAll n ls).clauses = n.clauses.filter (avoids ls) :=
  clauses_fixAll_eq_filter (h ▸ unopposed_pureLiterals n.clauses)

/-- The elimination of pure literals takes clauses away and changes none. -/
theorem clauses_eliminate_sublist (n : Node) :
    (eliminate n).node.clauses.Sublist n.clauses := by
  fun_induction eliminate n with
  | case1 n h => exact List.Sublist.refl _
  | case2 n h hp => exact List.Sublist.refl _
  | case3 n h l rest hp r ih =>
    rw [clauses_round hp] at ih
    exact ih.trans List.filter_sublist

theorem contradiction_of_sublist {m : Node} (h : m.clauses.Sublist n.clauses)
    (hn : n.contradiction = false) : m.contradiction = false := by
  rw [Node.contradiction, List.any_eq_false] at hn ⊢
  exact fun c hc => hn c (h.subset hc)

/-- A variable that occurs with one sign only has a pure literal. -/
theorem pureOn?_eq_some (h : occurs cs l.var l.positive = true)
    (hopposite : occurs cs l.var (!l.positive) = false) : pureOn? cs l.var = some l := by
  obtain ⟨v, positive, hv⟩ := l
  rw [pureOn?_eq, dif_pos hv]
  cases positive with
  | false => rw [show occurs cs v false = true from h, show occurs cs v true = false from hopposite]
  | true => rw [show occurs cs v true = true from h, show occurs cs v false = false from hopposite]

theorem pureFree_of_pureLiterals_eq_nil (h : pureLiterals cs = []) : PureFree cs := by
  intro c hc l hl
  have hnone : pureOn? cs l.var = none := by
    rw [pureLiterals_eq, List.filterMap_eq_nil_iff] at h
    exact h l.var (mem_varsOf.2 ⟨c, hc, List.mem_map_of_mem hl⟩)
  have hoccurs : occurs cs l.var l.positive = true := by
    simp only [occurs, List.any_eq_true, beq_iff_eq]
    exact ⟨c, hc, Clause.polarity?_of_mem hl⟩
  apply exists_clause_of_occurs
  by_contra hopposite
  rw [pureOn?_eq_some hoccurs (Bool.not_eq_true _ ▸ hopposite)] at hnone
  cases hnone

theorem pureFree_eliminate (h : n.contradiction = false) :
    PureFree (eliminate n).node.clauses := by
  fun_induction eliminate n with
  | case1 n hc => exact absurd (hc.symm.trans h) (by decide)
  | case2 n hc hp => exact pureFree_of_pureLiterals_eq_nil hp
  | case3 n hc l rest hp r ih =>
    apply ih
    exact contradiction_of_sublist (clauses_round hp ▸ List.filter_sublist) h

/-- A part free of pure literals holds no literal that is pure in the whole. -/
theorem avoids_of_pureFree (hds : PureFree ds) (hsub : ds ⊆ cs) :
    ∀ c ∈ ds, avoids (pureLiterals cs) c = true := by
  intro c hc
  unfold avoids
  simp only [List.all_eq_true, decide_eq_true_eq]
  intro l hl hmem
  obtain ⟨d, hd, hnegate⟩ := hds c hc l hmem
  have hsame := congrArg Literal.positive (eq_of_pure hl (hsub hd) hnegate rfl)
  rw [Literal.negate_positive] at hsame
  exact (Bool.not_eq_self _).1 hsame

theorem sublist_eliminate (h : ds.Sublist n.clauses) (hds : PureFree ds) :
    ds.Sublist (eliminate n).node.clauses := by
  fun_induction eliminate n with
  | case1 n hc => exact h
  | case2 n hc hp => exact h
  | case3 n hc l rest hp r ih =>
    apply ih
    have havoids := avoids_of_pureFree hds h.subset
    rw [hp] at havoids
    rw [clauses_round hp]
    have hfilter := h.filter (avoids (l :: rest))
    rwa [List.filter_eq_self.2 havoids] at hfilter

/-- The elimination of pure literals ends without a contradiction and leaves the largest part
of the clauses, in order and unchanged, that is free of pure literals. It fixes each of its
literals once, on variables that occur before and not after. A valuation of what is left that
is changed to make the fixed literals true satisfies all clauses, so one part can be satisfied
if the other can. The count is that of the fixed literals, none exactly if nothing changed. -/
theorem eliminate_greatest (n : Node) (h : n.contradiction = false) :
    ∃ fixed, n.Descends (eliminate n).node fixed ∧ fixed.length = (eliminate n).count ∧
      (eliminate n).node.contradiction = false ∧
      (eliminate n).node.clauses.Sublist n.clauses ∧
      PureFree (eliminate n).node.clauses ∧
      (∀ ds : List Clause, ds.Sublist n.clauses → PureFree ds →
        ds.Sublist (eliminate n).node.clauses) ∧
      (∀ l ∈ fixed, l.var ∉ (eliminate n).node.vars) ∧
      (∀ v : Valuation, v.Satisfies (eliminate n).node.clauses →
        (v.override fixed).Satisfies n.clauses) ∧
      ((∃ v : Valuation, v.Satisfies n.clauses) ↔
        ∃ v : Valuation, v.Satisfies (eliminate n).node.clauses) ∧
      ((eliminate n).count = 0 ↔ (eliminate n).node = n) := by
  obtain ⟨fixed, hfixed, hcount⟩ := exists_descends_eliminate n
  have hsublist := clauses_eliminate_sublist n
  have hgone : ∀ l ∈ fixed, l.var ∉ (eliminate n).node.vars := by
    intro l hl hvar
    rw [hfixed.reached] at hvar
    exact (Node.mem_vars_fixAll hvar).2 (List.mem_map_of_mem hl)
  have hextends : ∀ v : Valuation, v.Satisfies (eliminate n).node.clauses →
      (v.override fixed).Satisfies n.clauses := by
    intro v hv
    have htrue : ∀ l ∈ fixed, (v.override fixed).literal l = true :=
      fun l hl => Valuation.literal_override_of_mem v hfixed.distinct hl
    exact (hfixed.satisfies_iff htrue).1 ((Valuation.satisfies_override_iff hgone).2 hv)
  refine ⟨fixed, hfixed, hcount, contradiction_of_sublist hsublist h, hsublist,
    pureFree_eliminate h, fun ds hsub hds => sublist_eliminate hsub hds, hgone, hextends, ?_, ?_⟩
  · constructor
    · exact exists_satisfies_eliminate n
    · intro hexists
      obtain ⟨v, hv⟩ := hexists
      exact ⟨_, hextends v hv⟩
  · constructor
    · intro hzero
      have hnil := List.length_eq_zero_iff.1 (hcount.trans hzero)
      rw [hfixed.reached, hnil]
      rfl
    · intro hsame
      have hdepth := hfixed.depth_eq
      rw [hsame] at hdepth
      omega

/-- Two variables that must differ, and two clauses beside them. The last clause has a pure
literal, and once it has gone both literals of the second are pure. -/
def peeled : Node := Node.ofInts [[1, 2], [3, -4], [-1, -2], [-3, 4, 5]]

/-- The clauses on the two variables that must differ. -/
def core : List Clause := peeled.clauses.filter (fun c => c.contains 1)

theorem eliminate_greatest_peeled :
    peeled.contradiction = false ∧ core.length = 2 ∧ PureFree core ∧
      core.Sublist (eliminate peeled).node.clauses := by
  have hstart : peeled.contradiction = false := by decide
  have hcore : PureFree core := by decide
  obtain ⟨-, -, -, -, -, -, hgreatest, -⟩ := eliminate_greatest peeled hstart
  exact ⟨hstart, rfl, hcore, hgreatest core List.filter_sublist hcore⟩

end PureLiterals

end FactorSearch
