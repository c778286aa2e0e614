import FactorSearch.Proofs.ReadClauses
import Mathlib.Data.List.Induction

/-!
Clauses as histories of insertions. Each variable goes its own way: it is absent, or present
with a sign, and a literal on it brings it in, confirms it or takes it away, whatever happens to
other variables in between. So the literals on a variable decide whether it is present in the
end. A variable that comes back goes to the end of the clause, so the order of the literals is
that of the last entries of their variables.
-/

namespace FactorSearch.Clause

/-- What a literal on a variable does to the sign of the variable. -/
def signStep : Option Bool → Bool → Option Bool
  | none, q => some q
  | some p, q => if q = p then some p else none

/-- The literals on a variable, in order. -/
def literalsOn (v : Int) (ls : List Literal) : List Literal := ls.filter fun l => l.var == v

/-- The sign with which the literals on a variable leave it, if it is present in the end. -/
def signAfter (ls : List Literal) (v : Int) : Option Bool :=
  ((literalsOn v ls).map Literal.positive).foldl signStep none

/-- The variable is absent before the insertion at this position, and present after it. -/
def EntersAt (ls : List Literal) (v : Int) (i : ℕ) : Prop :=
  signAfter (ls.take i) v = none ∧ signAfter (ls.take (i + 1)) v ≠ none

/-- The position at which the variable enters for the last time. -/
structure LastEntry (ls : List Literal) (v : Int) (i : ℕ) : Prop where
  enters : EntersAt ls v i
  last : ∀ j, EntersAt ls v j → j ≤ i

/-- The first variable has entered for the last time before the second. -/
def EntersBefore (ls : List Literal) (v w : Int) : Prop :=
  ∀ i j, LastEntry ls v i → LastEntry ls w j → i < j

variable {c : Clause} {ls ms : List Literal} {l m : Literal} {v : Int} {i j : ℕ}

theorem mem_literals_iff : l ∈ c.literals ↔ c.polarity? l.var = some l.positive := by
  refine ⟨polarity?_of_mem, fun h => ?_⟩
  obtain ⟨m, hm, hvar, hpositive⟩ := mem_of_polarity? h
  exact Literal.ext hvar hpositive ▸ hm

theorem polarity?_without (c : Clause) (x v : Int) :
    (c.without x).polarity? v = if x = v then none else c.polarity? v := by
  by_cases hx : x = v
  · rw [if_pos hx, polarity?_eq_none_iff]
    exact fun hmem => (mem_vars_without.1 hmem).2 hx.symm
  · rw [if_neg hx, polarity?, without, List.find?_filter, polarity?]
    congr 2
    funext m
    by_cases hm : m.var = v
    · simp [hm, Ne.symm hx]
    · simp [hm]

theorem polarity?_insert_of_absent (h : c.polarity? l.var = none) (v : Int) :
    (c.insert l).polarity? v = if l.var = v then some l.positive else c.polarity? v := by
  rw [polarity?, literals_insert, h]
  dsimp only
  rw [List.find?_append, Option.map_or]
  change (c.polarity? v).or _ = _
  by_cases hvar : l.var = v
  · subst hvar
    rw [h]
    simp
  · simp [hvar]

theorem insert_of_present {p : Bool} (h : c.polarity? l.var = some p) :
    c.insert l = if p = l.positive then c else c.without l.var := by
  unfold insert
  split
  · rename_i hnone
    rw [h] at hnone
    cases hnone
  · rename_i q hq
    rw [h] at hq
    cases hq
    rfl

/-- Inserting a literal moves the sign of its own variable and of no other. -/
theorem polarity?_insert (c : Clause) (l : Literal) (v : Int) :
    (c.insert l).polarity? v =
      if l.var = v then signStep (c.polarity? v) l.positive else c.polarity? v := by
  cases hp : c.polarity? l.var with
  | none =>
    rw [polarity?_insert_of_absent hp]
    by_cases hvar : l.var = v
    · rw [if_pos hvar, if_pos hvar, ← hvar, hp, signStep]
    · rw [if_neg hvar, if_neg hvar]
  | some p =>
    rw [insert_of_present hp]
    by_cases hvar : l.var = v
    · rw [if_pos hvar, ← hvar, hp, signStep]
      by_cases hsame : p = l.positive
      · rw [if_pos hsame, if_pos hsame.symm, hp]
      · rw [if_neg hsame, if_neg (Ne.symm hsame), polarity?_without, if_pos rfl]
    · rw [if_neg hvar]
      split
      · rfl
      · rw [polarity?_without, if_neg hvar]

theorem literalsOn_concat (v : Int) (ls : List Literal) (m : Literal) :
    literalsOn v (ls ++ [m]) = literalsOn v ls ++ if m.var = v then [m] else [] := by
  rw [literalsOn, List.filter_append]
  by_cases hm : m.var = v <;> simp [literalsOn, hm]

theorem signAfter_concat (ls : List Literal) (m : Literal) (v : Int) :
    signAfter (ls ++ [m]) v =
      if m.var = v then signStep (signAfter ls v) m.positive else signAfter ls v := by
  rw [signAfter, literalsOn_concat]
  by_cases hm : m.var = v
  · rw [if_pos hm, if_pos hm, List.map_append, List.map_singleton, List.foldl_concat, signAfter]
  · rw [if_neg hm, if_neg hm, List.append_nil, signAfter]

theorem ofLiterals_concat (ls : List Literal) (m : Literal) :
    ofLiterals (ls ++ [m]) = (ofLiterals ls).insert m := List.foldl_concat _ _ _ _

/-- A variable is in the clause with the sign in which its own literals leave it. -/
theorem polarity?_ofLiterals (ls : List Literal) (v : Int) :
    (ofLiterals ls).polarity? v = signAfter ls v := by
  induction ls using List.reverseRecOn with
  | nil => rfl
  | append_singleton ls m ih => rw [ofLiterals_concat, polarity?_insert, signAfter_concat, ih]

/-- Clauses of the same literals on each variable are the same, however these are mixed. -/
theorem same_ofLiterals (h : ∀ v, literalsOn v ls = literalsOn v ms) :
    (ofLiterals ls).same (ofLiterals ms) = true := by
  rw [same_iff]
  intro l
  rw [mem_literals_iff, mem_literals_iff, polarity?_ofLiterals, polarity?_ofLiterals, signAfter,
    signAfter, h]

theorem EntersAt.lt_length (h : EntersAt ls v i) : i < ls.length := by
  by_contra hle
  have hbefore : ls.take i = ls := List.take_of_length_le (by omega)
  have hafter : ls.take (i + 1) = ls := List.take_of_length_le (by omega)
  obtain ⟨habsent, hpresent⟩ := h
  rw [hbefore] at habsent
  rw [hafter] at hpresent
  exact hpresent habsent

/-- One more insertion adds an entry if its variable has been absent. -/
theorem entersAt_concat :
    EntersAt (ls ++ [m]) v i ↔
      EntersAt ls v i ∨ i = ls.length ∧ m.var = v ∧ signAfter ls v = none := by
  rcases Nat.lt_trichotomy i ls.length with hlt | rfl | hgt
  · have hne : i ≠ ls.length := by omega
    rw [EntersAt, List.take_append_of_le_length (Nat.le_of_lt hlt),
      List.take_append_of_le_length hlt, EntersAt]
    simp [hne]
  · have hwhole : (ls ++ [m]).take (ls.length + 1) = ls ++ [m] :=
      List.take_of_length_le (by simp)
    have hold : ¬ EntersAt ls v ls.length := fun h => absurd h.lt_length (Nat.lt_irrefl _)
    rw [EntersAt, List.take_left, hwhole, signAfter_concat]
    by_cases hm : m.var = v
    · cases hsign : signAfter ls v with
      | none => simp [hm, signStep]
      | some p => simp [hold]
    · simp [hm, hold]
  · have hold : ¬ EntersAt ls v i := fun h => absurd h.lt_length (by omega)
    have hnew : ¬ EntersAt (ls ++ [m]) v i := by
      intro h
      have hlength := h.lt_length
      rw [List.length_append, List.length_singleton] at hlength
      omega
    have hne : i ≠ ls.length := by omega
    simp [hold, hnew, hne]

theorem LastEntry.unique (h : LastEntry ls v i) (h' : LastEntry ls v j) : i = j :=
  Nat.le_antisymm (h'.last i h.enters) (h.last j h'.enters)

/-- An insertion that brings in no variable moves no last entry, and one that brings in a variable
moves those of no other. -/
theorem lastEntry_concat (h : m.var = v → signAfter ls v ≠ none) :
    LastEntry (ls ++ [m]) v i ↔ LastEntry ls v i := by
  have hsame : ∀ j, EntersAt (ls ++ [m]) v j ↔ EntersAt ls v j := by
    intro j
    rw [entersAt_concat]
    exact or_iff_left fun hnew => h hnew.2.1 hnew.2.2
  constructor
  · exact fun hlast => ⟨(hsame i).1 hlast.enters, fun j hj => hlast.last j ((hsame j).2 hj)⟩
  · exact fun hlast => ⟨(hsame i).2 hlast.enters, fun j hj => hlast.last j ((hsame j).1 hj)⟩

/-- A variable that has been absent enters with its literal. -/
theorem lastEntry_length (h : signAfter ls m.var = none) :
    LastEntry (ls ++ [m]) m.var ls.length where
  enters := entersAt_concat.2 (.inr ⟨rfl, rfl, h⟩)
  last j hj := by
    rcases entersAt_concat.1 hj with hold | ⟨rfl, -⟩
    · exact Nat.le_of_lt hold.lt_length
    · exact Nat.le_refl _

theorem signAfter_ne_none_of_mem (h : l ∈ (ofLiterals ls).literals) :
    signAfter ls l.var ≠ none := by
  rw [mem_literals_iff, polarity?_ofLiterals] at h
  rw [h]
  exact Option.some_ne_none _

/-- A literal joins the clause at its end, or its variable is there already and none joins. -/
theorem literals_concat_cases (ls : List Literal) (m : Literal) :
    (signAfter ls m.var = none ∧
      (ofLiterals (ls ++ [m])).literals = (ofLiterals ls).literals ++ [m]) ∨
    (ofLiterals (ls ++ [m])).literals.Sublist (ofLiterals ls).literals := by
  rw [ofLiterals_concat, literals_insert, polarity?_ofLiterals]
  cases signAfter ls m.var with
  | none => exact .inl ⟨rfl, rfl⟩
  | some p =>
    right
    dsimp only
    split
    · exact List.Sublist.refl _
    · exact List.filter_sublist

/-- The literals stand in the order in which their variables have entered for the last time. -/
theorem pairwise_entersBefore (ls : List Literal) :
    (ofLiterals ls).literals.Pairwise fun a b => EntersBefore ls a.var b.var := by
  induction ls using List.reverseRecOn with
  | nil => exact List.Pairwise.nil
  | append_singleton ls m ih =>
    have hold : (ofLiterals ls).literals.Pairwise fun a b =>
        EntersBefore (ls ++ [m]) a.var b.var := by
      apply ih.imp_of_mem
      intro a b ha hb hab i j hi hj
      apply hab
      · exact (lastEntry_concat fun _ => signAfter_ne_none_of_mem ha).1 hi
      · exact (lastEntry_concat fun _ => signAfter_ne_none_of_mem hb).1 hj
    rcases literals_concat_cases ls m with ⟨hnew, heq⟩ | hsublist
    · rw [heq, List.pairwise_append]
      refine ⟨hold, List.pairwise_singleton _ _, fun a ha b hb i j hi hj => ?_⟩
      rw [List.mem_singleton] at hb
      subst hb
      rw [hj.unique (lastEntry_length hnew)]
      exact ((lastEntry_concat fun _ => signAfter_ne_none_of_mem ha).1 hi).enters.lt_length
    · exact hold.sublist hsublist

/-- Each literal of the clause is the one with which its variable has entered for the last time. -/
theorem exists_lastEntry (h : l ∈ (ofLiterals ls).literals) :
    ∃ i, LastEntry ls l.var i ∧ ls[i]? = some l := by
  induction ls using List.reverseRecOn with
  | nil => exact absurd h List.not_mem_nil
  | append_singleton ls m ih =>
    have hold : l ∈ (ofLiterals ls).literals →
        ∃ i, LastEntry (ls ++ [m]) l.var i ∧ (ls ++ [m])[i]? = some l := by
      intro hl
      obtain ⟨i, hlast, hget⟩ := ih hl
      refine ⟨i, (lastEntry_concat fun _ => signAfter_ne_none_of_mem hl).2 hlast, ?_⟩
      rw [List.getElem?_append_left hlast.enters.lt_length, hget]
    rcases literals_concat_cases ls m with ⟨hnew, heq⟩ | hsublist
    · rw [heq, List.mem_append, List.mem_singleton] at h
      rcases h with hl | rfl
      · exact hold hl
      · exact ⟨ls.length, lastEntry_length hnew, List.getElem?_concat_length⟩
    · exact hold (hsublist.subset h)

theorem eraseDups_concat (ls : List Literal) (m : Literal) :
    (ls ++ [m]).eraseDups = ls.eraseDups ++ if m ∈ ls then [] else [m] := by
  rw [List.eraseDups_append]
  by_cases hm : m ∈ ls
  · simp [List.removeAll, hm]
  · simp [List.removeAll, hm, List.eraseDups_cons]

/-- Literals that do not meet their negations are kept once each, at their first occurrences. -/
theorem literals_ofLiterals_of_consistent (h : Consistent ls) :
    (ofLiterals ls).literals = ls.eraseDups := by
  induction ls using List.reverseRecOn with
  | nil => rfl
  | append_singleton ls m ih =>
    have hls : Consistent ls := fun l hl hmem =>
      h l (List.mem_append_left _ hl) (List.mem_append_left _ hmem)
    rw [eraseDups_concat, ← ih hls, ofLiterals_concat]
    by_cases hm : m ∈ ls
    · have hpresent := polarity?_of_mem ((mem_ofLiterals_iff hls).2 hm)
      rw [insert_of_present hpresent, if_pos rfl, if_pos hm, List.append_nil]
    · have habsent : (ofLiterals ls).polarity? m.var = none := by
        rw [polarity?_eq_none_iff]
        intro hvar
        obtain ⟨l, hl, hlm⟩ := mem_vars.1 hvar
        have hmem := mem_ofLiterals hl
        have hne : m ≠ l := fun heq => hm (heq ▸ hmem)
        apply h m (List.mem_append_right _ (List.mem_singleton_self m))
        rw [Literal.negate_eq_of_var_eq hlm.symm hne]
        exact List.mem_append_left _ hmem
      rw [literals_insert, habsent, if_neg hm]

/-- Literals that are inserted one after another leave a clause on distinct variables. A variable
is in it with a sign exactly if its own literals leave it with this sign, and the literals stand
in the order of the insertions at which their variables have entered for the last time. So the
clause does not depend on how literals on different variables are mixed, and where no literal
meets its negation it has all of them in the order of their first occurrences. -/
theorem ofLiterals_last_entries (ls : List Literal) :
    (ofLiterals ls).vars.Nodup ∧
    (∀ v q, (ofLiterals ls).polarity? v = some q ↔ signAfter ls v = some q) ∧
    (∀ l ∈ (ofLiterals ls).literals, ∃ i, LastEntry ls l.var i ∧ ls[i]? = some l) ∧
    ((ofLiterals ls).literals.Pairwise fun a b => EntersBefore ls a.var b.var) ∧
    (∀ ms, (∀ v, literalsOn v ls = literalsOn v ms) →
      (ofLiterals ls).same (ofLiterals ms) = true) ∧
    (Consistent ls → (ofLiterals ls).literals = ls.eraseDups) := by
  refine ⟨(ofLiterals ls).nodup_vars, fun v q => ?_, fun l hl => exists_lastEntry hl,
    pairwise_entersBefore ls, fun ms hms => same_ofLiterals hms,
    literals_ofLiterals_of_consistent⟩
  rw [polarity?_ofLiterals]

/-- Only the variables that occur have to be compared. -/
theorem literalsOn_congr (h : ∀ l ∈ ls ++ ms, literalsOn l.var ls = literalsOn l.var ms) :
    ∀ v, literalsOn v ls = literalsOn v ms := by
  intro v
  by_cases hv : ∃ l ∈ ls ++ ms, l.var = v
  · obtain ⟨l, hl, rfl⟩ := hv
    exact h l hl
  · have hnone : ∀ l ∈ ls ++ ms, ¬ (l.var == v) = true := by
      intro l hl hvar
      exact hv ⟨l, hl, beq_iff_eq.1 hvar⟩
    rw [List.forall_mem_append] at hnone
    rw [literalsOn, literalsOn, List.filter_eq_nil_iff.2 hnone.1, List.filter_eq_nil_iff.2 hnone.2]

/-- The first variable leaves and comes back, behind the others. -/
def returning : List Literal := [1, -2, -1, 3, 1, -2].filterMap fun n => (Literal.ofInt n).toOption

/-- The same with the first variable done before the others. -/
def regrouped : List Literal := [1, -1, 1, -2, -2, 3].filterMap fun n => (Literal.ofInt n).toOption

def repeating : List Literal := [-2, 3, -2, 1, 3].filterMap fun n => (Literal.ofInt n).toOption

theorem ofLiterals_last_entries_returning :
    (ofLiterals returning).literals.map Literal.toInt = [-2, 3, 1] ∧
    (ofLiterals regrouped).literals.map Literal.toInt = [1, -2, 3] ∧
    (∀ v, literalsOn v returning = literalsOn v regrouped) ∧
    (ofLiterals returning).same (ofLiterals regrouped) = true ∧
    Consistent repeating ∧ (ofLiterals repeating).literals = repeating.eraseDups := by
  have hmixed : ∀ v, literalsOn v returning = literalsOn v regrouped := literalsOn_congr (by decide)
  have hrepeating : Consistent repeating := by decide
  obtain ⟨-, -, -, -, hsame, -⟩ := ofLiterals_last_entries returning
  obtain ⟨-, -, -, -, -, hfirst⟩ := ofLiterals_last_entries repeating
  exact ⟨by decide, by decide, hmixed, hsame regrouped hmixed, hrepeating, hfirst hrepeating⟩

end FactorSearch.Clause
