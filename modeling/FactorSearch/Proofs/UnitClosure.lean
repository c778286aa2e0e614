import FactorSearch.Proofs.Branching
import FactorSearch.Proofs.PrescribedClauses

/-!
What unit propagation fixes. A clause implies its last literal once the negations of all
others are implied; the literals implied in this way are the least set closed under the
rule. Each forced literal is implied, and when propagation ends without a contradiction
what it has fixed is closed under the rule, so it is all that is implied. A contradiction
appears exactly if the negations of all literals of some clause are implied. The implied
literals depend on the clauses as a set of sets of literals, so neither the order nor the
repetition of clauses or literals changes what propagation comes to.
-/

namespace FactorSearch

open Restriction PureLiterals

namespace Clause

/-- Each clause of the second list is one of the first, its literals perhaps in another order. -/
def Covers (cs ds : List Clause) : Prop := ∀ d ∈ ds, ∃ c ∈ cs, c.same d = true

/-- Both lists hold the same clauses, in any order and each any number of times. -/
def SameSet (cs ds : List Clause) : Prop := Covers cs ds ∧ Covers ds cs

instance (cs ds : List Clause) : Decidable (Covers cs ds) :=
  inferInstanceAs (Decidable (∀ d ∈ ds, ∃ c ∈ cs, c.same d = true))

instance (cs ds : List Clause) : Decidable (SameSet cs ds) :=
  inferInstanceAs (Decidable (Covers cs ds ∧ Covers ds cs))

theorem SameSet.isEmpty {cs ds : List Clause} (h : SameSet cs ds)
    (hcs : ∀ c ∈ cs, c.isEmpty = false) : ∀ d ∈ ds, d.isEmpty = false := by
  intro d hd
  obtain ⟨c, hc, hsame⟩ := h.1 d hd
  obtain ⟨l, hl⟩ := isEmpty_eq_false_iff.1 (hcs c hc)
  exact isEmpty_eq_false_iff.2 ⟨l, ((same_iff c d).1 hsame l).1 hl⟩

end Clause

namespace Signs

variable {ls ms : List Literal}

theorem ofPath_eq_some_iff (h : (ls.map Literal.var).Nodup) {v : Int} {p : Bool} :
    ofPath ls v = some p ↔ ∃ l ∈ ls, l.var = v ∧ l.positive = p := by
  constructor
  · exact Clause.mem_of_polarity? (c := ⟨ls, h⟩)
  · intro hexists
    obtain ⟨l, hl, rfl, rfl⟩ := hexists
    exact Clause.polarity?_of_mem (c := ⟨ls, h⟩) hl

theorem isTrue_ofPath_iff (h : (ls.map Literal.var).Nodup) {l : Literal} :
    (ofPath ls).isTrue l = true ↔ l ∈ ls := by
  unfold isTrue
  rw [beq_iff_eq, ofPath_eq_some_iff h]
  constructor
  · intro hexists
    obtain ⟨m, hm, hvar, hpositive⟩ := hexists
    exact Literal.ext hvar hpositive ▸ hm
  · exact fun hl => ⟨l, hl, rfl, rfl⟩

theorem isFalse_ofPath_iff (h : (ls.map Literal.var).Nodup) {l : Literal} :
    (ofPath ls).isFalse l = true ↔ l.negate ∈ ls := isTrue_ofPath_iff (l := l.negate) h

/-- The order of a path on distinct variables gives no other signs. -/
theorem ofPath_perm (h : (ls.map Literal.var).Nodup) (hperm : ls.Perm ms) :
    ofPath ls = ofPath ms := by
  funext v
  apply Option.ext
  intro p
  have h' := (hperm.map Literal.var).nodup_iff.1 h
  simp only [ofPath_eq_some_iff h, ofPath_eq_some_iff h', hperm.mem_iff]

theorem covers_residual (s : Signs) {cs ds : List Clause} (h : Clause.Covers cs ds) :
    Clause.Covers (s.residual cs) (s.residual ds) := by
  intro e he
  obtain ⟨d, hd, rfl⟩ := List.mem_map.1 he
  obtain ⟨hmem, hopen⟩ := List.mem_filter.1 hd
  obtain ⟨c, hc, hsame⟩ := h d hmem
  have hiff := (Clause.same_iff c d).1 hsame
  have hsatisfies : s.satisfies c = s.satisfies d := by
    rw [Bool.eq_iff_iff]
    simp only [satisfies, List.any_eq_true, hiff]
  refine ⟨s.reduce c, List.mem_map_of_mem (List.mem_filter.2 ⟨hc, hsatisfies ▸ hopen⟩), ?_⟩
  rw [Clause.same_iff]
  intro l
  simp only [reduce, List.mem_filter, hiff]

end Signs

open Signs

/-- Without a contradiction the lower node holds what the fixed literals leave. -/
theorem Node.Descends.clauses_eq_residual {n m : Node} {fixed : List Literal}
    (h : n.Descends m fixed) (hm : m.contradiction = false) :
    m.clauses = (ofPath fixed).residual n.clauses := by
  have hbegins := n.beginning_fixAll fixed
  rw [← h.reached] at hbegins
  exact hbegins.whole hm

theorem Node.Descends.contradiction_iff {n m : Node} {fixed : List Literal}
    (h : n.Descends m fixed) :
    m.contradiction = true ↔ ∃ c ∈ n.clauses, ∀ l ∈ c.literals, l.negate ∈ fixed := by
  rw [h.reached, contradiction_fixAll_iff]
  simp only [falsifies, List.all_eq_true, isFalse_ofPath_iff h.distinct]

namespace UnitPropagation

/-- The least set of literals such that a literal of a clause belongs to it whenever the
negations of all other literals of the clause do. -/
inductive Implied (cs : List Clause) : Literal → Prop
  | last {c : Clause} {l : Literal} (hc : c ∈ cs) (hl : l ∈ c.literals)
      (others : ∀ m ∈ c.literals, m ≠ l → Implied cs m.negate) : Implied cs l

/-- The set holds a literal of a clause whenever it holds the negations of all others. -/
def Closed (cs : List Clause) (S : Literal → Prop) : Prop :=
  ∀ c ∈ cs, ∀ l ∈ c.literals, (∀ m ∈ c.literals, m ≠ l → S m.negate) → S l

namespace Implied

variable {cs ds : List Clause} {l m : Literal}

theorem least {S : Literal → Prop} (hS : Closed cs S) (h : Implied cs l) : S l := by
  induction h with
  | last hc hl _ ih => exact hS _ hc _ hl ih

theorem covered (h : Clause.Covers ds cs) (hl : Implied cs l) : Implied ds l := by
  induction hl with
  | last hc hl _ ih =>
    obtain ⟨d, hd, hsame⟩ := h _ hc
    have hiff := (Clause.same_iff d _).1 hsame
    exact .last hd ((hiff _).2 hl) fun m hm hne => ih m ((hiff m).1 hm) hne

/-- What is implied once an implied literal has been made true was implied before. -/
theorem of_restrict (hl : Implied cs l) (hm : Implied (restrict l cs) m) : Implied cs m := by
  induction hm with
  | last hc hm _ ih =>
    obtain ⟨d, hd, hnot, rfl⟩ := mem_restrict hc
    refine .last hd (List.mem_filter.1 hm).1 fun k hk hne => ?_
    by_cases hvar : k.var = l.var
    · have hkl : k ≠ l := fun heq => hnot (heq ▸ hk)
      rw [Literal.negate_eq_of_var_eq hvar hkl]
      exact hl
    · exact ih k (List.mem_filter.2 ⟨hk, bne_iff_ne.2 hvar⟩) hne

/-- A valuation of the clauses makes every implied literal true. -/
theorem literal_eq_true {v : Valuation} (hv : v.Satisfies cs) (h : Implied cs l) :
    v.literal l = true := by
  induction h with
  | @last c l hc hl _ ih =>
    obtain ⟨m, hm, htrue⟩ := List.any_eq_true.1 (hv c hc)
    by_cases hml : m = l
    · exact hml ▸ htrue
    · have hfalse := ih m hm hml
      rw [Valuation.literal_negate, htrue] at hfalse
      exact absurd hfalse Bool.false_ne_true

end Implied

theorem implied_of_forced {n : Node} {l : Literal} (h : forced? n = some l) :
    Implied n.clauses l := by
  obtain ⟨c, hc, hl⟩ := forced?_mem h
  refine .last hc (by rw [hl]; exact List.mem_singleton_self l) fun m hm hne => ?_
  rw [hl, List.mem_singleton] at hm
  exact absurd hm hne

/-- Propagation fixes implied literals only. -/
theorem exists_implied_propagate (n : Node) :
    ∃ fixed, n.Descends (propagate n).node fixed ∧ fixed.length = (propagate n).count ∧
      ∀ l ∈ fixed, Implied n.clauses l := by
  fun_induction propagate n with
  | case1 n h => exact ⟨[], Node.Descends.refl n, rfl, List.forall_mem_nil _⟩
  | case2 n l h r ih =>
    obtain ⟨fixed, hfixed, hcount, himplied⟩ := ih
    have hl := implied_of_forced h
    refine ⟨l :: fixed, (Node.Descends.child (forced?_var_mem h)).trans hfixed, ?_, ?_⟩
    · rw [List.length_cons, hcount]
    · exact List.forall_mem_cons.2 ⟨hl, fun m hm => hl.of_restrict (himplied m hm)⟩

variable {n m : Node} {fixed : List Literal}

/-- Without a contradiction nothing more can be implied by what has been fixed: a clause
whose other literals are false has its last literal among the fixed ones, or it would be left
as a clause of at most one literal. -/
theorem closed_of_propagated (h : n.Descends (propagate n).node fixed)
    (hend : (propagate n).node.contradiction = false) : Closed n.clauses (· ∈ fixed) := by
  intro c hc l hl hothers
  cases htrue : (ofPath fixed).satisfies c with
  | true =>
    obtain ⟨k, hk, hkt⟩ := List.any_eq_true.1 htrue
    by_cases hkl : k = l
    · rw [← hkl]
      exact (isTrue_ofPath_iff h.distinct).1 hkt
    · have hfalse := (isFalse_ofPath_iff h.distinct).2 (hothers k hk hkl)
      rw [not_isFalse_of_isTrue hkt] at hfalse
      exact absurd hfalse Bool.false_ne_true
  | false =>
    have hleft : (ofPath fixed).reduce c ∈ (propagate n).node.clauses := by
      rw [h.clauses_eq_residual hend]
      exact List.mem_map_of_mem (List.mem_filter.2 ⟨hc, by rw [htrue]; rfl⟩)
    have hlong := Node.two_le_size_of_forced?_eq_none hend (forced?_propagate n) _ hleft
    have honly : ((ofPath fixed).reduce c).literals ⊆ [l] := by
      intro k hk
      obtain ⟨hkc, hkeep⟩ := List.mem_filter.1 hk
      by_contra hkl
      rw [List.mem_singleton] at hkl
      rw [(isFalse_ofPath_iff h.distinct).2 (hothers k hkc hkl)] at hkeep
      exact absurd hkeep Bool.false_ne_true
    have hshort := (List.Nodup.of_map _ ((ofPath fixed).reduce c).nodup_vars).length_le_of_subset honly
    rw [List.length_singleton] at hshort
    unfold Clause.size at hlong
    omega

theorem mem_fixed_iff (h : n.Descends (propagate n).node fixed)
    (himplied : ∀ l ∈ fixed, Implied n.clauses l)
    (hend : (propagate n).node.contradiction = false) {l : Literal} :
    l ∈ fixed ↔ Implied n.clauses l :=
  ⟨himplied l, Implied.least (closed_of_propagated h hend)⟩

/-- Propagation ends in a contradiction exactly if all literals of a clause are refuted. -/
theorem contradiction_propagate_iff (n : Node) :
    (propagate n).node.contradiction = true ↔
      ∃ c ∈ n.clauses, ∀ l ∈ c.literals, Implied n.clauses l.negate := by
  obtain ⟨fixed, hfixed, -, himplied⟩ := exists_implied_propagate n
  constructor
  · intro hend
    obtain ⟨c, hc, hrefuted⟩ := hfixed.contradiction_iff.1 hend
    exact ⟨c, hc, fun l hl => himplied _ (hrefuted l hl)⟩
  · intro hrefuted
    by_contra hend
    rw [Bool.not_eq_true] at hend
    obtain ⟨c, hc, hrefuted⟩ := hrefuted
    have hcontra := hfixed.contradiction_iff.2
      ⟨c, hc, fun l hl => (mem_fixed_iff hfixed himplied hend).2 (hrefuted l hl)⟩
    rw [hend] at hcontra
    exact Bool.false_ne_true hcontra

/-- The same clauses refute the same clauses. -/
theorem contradiction_propagate_congr (h : Clause.SameSet n.clauses m.clauses) :
    (propagate m).node.contradiction = (propagate n).node.contradiction := by
  have hpasses : ∀ {n m : Node}, Clause.SameSet n.clauses m.clauses →
      (propagate n).node.contradiction = true → (propagate m).node.contradiction = true := by
    intro n m h hend
    obtain ⟨c, hc, hrefuted⟩ := (contradiction_propagate_iff n).1 hend
    obtain ⟨d, hd, hsame⟩ := h.2 c hc
    have hiff := (Clause.same_iff d c).1 hsame
    exact (contradiction_propagate_iff m).2
      ⟨d, hd, fun l hl => (hrefuted l ((hiff l).1 hl)).covered h.2⟩
  rw [Bool.eq_iff_iff]
  exact ⟨hpasses ⟨h.2, h.1⟩, hpasses h⟩

/-- The same clauses have the same literals fixed, in some order, and the same clauses left. -/
theorem perm_of_propagated {fixed' : List Literal} (h : Clause.SameSet n.clauses m.clauses)
    (hn : n.Descends (propagate n).node fixed) (himplied : ∀ l ∈ fixed, Implied n.clauses l)
    (hm : m.Descends (propagate m).node fixed') (himplied' : ∀ l ∈ fixed', Implied m.clauses l)
    (hend : (propagate n).node.contradiction = false) :
    fixed'.Perm fixed ∧ Clause.SameSet (propagate n).node.clauses (propagate m).node.clauses := by
  have hend' := (contradiction_propagate_congr h).trans hend
  have hperm : fixed'.Perm fixed := by
    rw [List.perm_ext_iff_of_nodup (hm.distinct.of_map _) (hn.distinct.of_map _)]
    intro l
    rw [mem_fixed_iff hm himplied' hend', mem_fixed_iff hn himplied hend]
    exact ⟨Implied.covered h.1, Implied.covered h.2⟩
  refine ⟨hperm, ?_⟩
  rw [hn.clauses_eq_residual hend, hm.clauses_eq_residual hend', ofPath_perm hm.distinct hperm]
  exact ⟨covers_residual _ h.1, covers_residual _ h.2⟩

/-- Unit propagation computes a closure. It ends, after as many steps as it fixes literals and
at most one for each open variable, in a contradiction exactly if all literals of a clause are
refuted, and otherwise it has fixed the implied literals, each once, and left no unit clause.
Every valuation of the clauses makes the fixed literals true. Clauses that are the same as a
set, which are those of some node if none is empty, lead to the same end. -/
theorem propagate_closure (n : Node) :
    ∃ fixed, n.Descends (propagate n).node fixed ∧ fixed.length = (propagate n).count ∧
      (propagate n).count ≤ n.vars.length ∧
      ((propagate n).node.contradiction = true ↔
        ∃ c ∈ n.clauses, ∀ l ∈ c.literals, Implied n.clauses l.negate) ∧
      ((propagate n).node.contradiction = false →
        (∀ l, l ∈ fixed ↔ Implied n.clauses l) ∧
        ∀ c ∈ (propagate n).node.clauses, c.isUnit = false) ∧
      (∀ v : Valuation, v.Satisfies n.clauses → ∀ l ∈ fixed, v.literal l = true) ∧
      ∀ ds, Clause.SameSet n.clauses ds →
        (n.contradiction = false → ∃ m : Node, m.clauses = ds) ∧
        ∀ m : Node, m.clauses = ds →
          (propagate m).node.contradiction = (propagate n).node.contradiction ∧
          ((propagate n).node.contradiction = false →
            ∃ fixed', m.Descends (propagate m).node fixed' ∧ fixed'.Perm fixed ∧
              (propagate m).count = (propagate n).count ∧
              Clause.SameSet (propagate n).node.clauses (propagate m).node.clauses) := by
  obtain ⟨fixed, hfixed, hcount, himplied⟩ := exists_implied_propagate n
  have hbound : (propagate n).count ≤ n.vars.length := by
    have hle := hfixed.length_add_vars_le
    omega
  refine ⟨fixed, hfixed, hcount, hbound, contradiction_propagate_iff n, ?_, ?_, ?_⟩
  · intro hend
    refine ⟨fun l => mem_fixed_iff hfixed himplied hend, fun c hc => ?_⟩
    have htwo := Node.two_le_size_of_forced?_eq_none hend (forced?_propagate n) c hc
    exact beq_eq_false_iff_ne.2 (by omega)
  · exact fun v hv l hl => (himplied l hl).literal_eq_true hv
  · intro ds hsame
    refine ⟨fun hn => ?_, fun m hm => ?_⟩
    · exact Node.exists_clauses_eq (hsame.isEmpty (Search.nonempty_of_not_contradiction hn))
    · subst hm
      refine ⟨contradiction_propagate_congr hsame, fun hend => ?_⟩
      obtain ⟨fixed', hfixed', hcount', himplied'⟩ := exists_implied_propagate m
      obtain ⟨hperm, hleft⟩ := perm_of_propagated hsame hfixed himplied hfixed' himplied' hend
      exact ⟨fixed', hfixed', hperm, by rw [← hcount', ← hcount, hperm.length_eq], hleft⟩

/-- One literal is forced, then another; two of four variables stay open. -/
def chain : Node := Node.ofInts [[1], [-1, 2], [-2, 3, 4]]

/-- The clauses of the chain in another order, one of them twice, with literals exchanged. -/
def shuffledChain : List Clause := (Node.ofInts [[4, 3, -2], [2, -1], [1]]).clauses ++
  (Node.ofInts [[-1, 2]]).clauses

theorem propagate_closure_chain :
    Clause.SameSet chain.clauses shuffledChain ∧ chain.contradiction = false ∧
      (propagate chain).node.contradiction = false ∧
      ∃ m : Node, m.clauses = shuffledChain ∧ (propagate m).count = (propagate chain).count ∧
        Clause.SameSet (propagate chain).node.clauses (propagate m).node.clauses := by
  have hsame : Clause.SameSet chain.clauses shuffledChain := by decide
  have hstart : chain.contradiction = false := by decide
  have hend : (propagate chain).node.contradiction = false := by
    have hv : Valuation.Satisfies (fun _ => true) chain.clauses := by decide
    rw [← Bool.not_eq_true]
    exact fun hcontra => Valuation.not_satisfies_of_contradiction hcontra (satisfies_propagate chain hv)
  obtain ⟨fixed, -, -, -, -, -, -, hshuffled⟩ := propagate_closure chain
  obtain ⟨hexists, hall⟩ := hshuffled _ hsame
  obtain ⟨m, hm⟩ := hexists hstart
  obtain ⟨-, hleft⟩ := hall m hm
  obtain ⟨fixed', -, -, hcount, hleft⟩ := hleft hend
  exact ⟨hsame, hstart, hend, m, hm, hcount, hleft⟩

end UnitPropagation

end FactorSearch
