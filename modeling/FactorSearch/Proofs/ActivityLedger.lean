import FactorSearch.Proofs.FirstMaximum
import FactorSearch.Proofs.Interruption

/-!
The activity table as a ledger of decisions. A decision either raises the value of the variable
that it is on by one, or enters that variable at zero, so it adds one to the keys and the values
counted together. A variable is entered only where none of the open variables has a value. The
table is carried from branch to branch and from search to search: it may hold variables that are
not open at a node, and these keep their values.
-/

namespace FactorSearch

open Restriction Search

namespace Table

variable {κ α : Type} [DecidableEq κ] {t : Table κ α} {k : κ}

theorem mem_keys_iff : k ∈ t.keys ↔ ∃ a, t.get? k = some a := by
  rw [← contains_iff, contains, Option.isSome_iff_exists]

theorem get?_eq_none_iff : t.get? k = none ↔ k ∉ t.keys := by
  rw [mem_keys_iff, ← Option.isSome_iff_exists, Option.not_isSome_iff_eq_none]

theorem put_of_notMem (a : α) {entries : List (κ × α)}
    (h : k ∉ entries.map Prod.fst) : put k a entries = entries ++ [(k, a)] := by
  induction entries with
  | nil => rfl
  | cons e rest ih =>
    rw [List.map_cons, List.mem_cons, not_or] at h
    rw [put, if_neg fun heq => h.1 heq.symm, ih h.2, List.cons_append]

theorem sum_put (k : κ) (a : Int) (entries : List (κ × Int)) :
    ((put k a entries).map Prod.snd).sum + (lookup k entries).getD 0 =
      (entries.map Prod.snd).sum + a := by
  induction entries with
  | nil => simp [put, lookup]
  | cons e rest ih =>
    obtain ⟨k', a'⟩ := e
    by_cases h : k' = k
    · simp only [put, lookup, if_pos h, List.map_cons, List.sum_cons, Option.getD_some]
      omega
    · simp only [put, lookup, if_neg h, List.map_cons, List.sum_cons]
      omega

end Table

namespace Heuristic

/-- The value of a variable, zero if it has none. -/
def value (table : Activity) (v : Int) : Int := (table.get? v).getD 0

/-- How many clauses a variable occurs in. -/
def mentions (cs : List Clause) (v : Int) : Int := cs.countP fun c => c.contains v

/-- The number of keys and the sum of the values together. -/
def total (table : Activity) : Int := table.keys.length + (table.entries.map Prod.snd).sum

/-- No key is lost, and no value is lower. -/
def Grows (t u : Activity) : Prop := ∀ x a, t.get? x = some a → ∃ b, u.get? x = some b ∧ a ≤ b

variable {t u w : Activity} {v : Int}

theorem Grows.refl (t : Activity) : Grows t t := fun _ a h => ⟨a, h, Int.le_refl a⟩

theorem Grows.trans (h : Grows t u) (h' : Grows u w) : Grows t w := by
  intro x a ha
  obtain ⟨b, hb, hab⟩ := h x a ha
  obtain ⟨c, hc, hbc⟩ := h' x b hb
  exact ⟨c, hc, Int.le_trans hab hbc⟩

theorem total_insert (t : Activity) (v a : Int) :
    total (t.insert v a) + value t v = total t + a + if v ∈ t.keys then 0 else 1 := by
  have hsum := Table.sum_put v a t.entries
  have hkeys := congrArg List.length (t.keys_insert v a)
  unfold total value Table.get?
  rw [hkeys]
  split
  · dsimp only [Table.insert]
    omega
  · dsimp only [Table.insert]
    rw [List.length_append, List.length_singleton]
    omega

/-- What the activity heuristic does to the table at a node. -/
inductive Scored (b : Branching) (after : Activity) : Prop
  /-- No open variable has a value, and the one in the most clauses is entered at zero. -/
  | entered (hnew : ∀ x ∈ b.node.vars, x ∉ b.activity.keys)
      (hmax : FirstMax (mentions b.node.clauses) (b.node.clauses.flatMap Clause.vars) b.var)
      (hafter : after.entries = b.activity.entries ++ [(b.var, 0)])
  /-- The open variable of highest value gains one, and no other value changes. -/
  | raised (a : Int)
      (hmax : FirstMax (value b.activity)
        ((b.node.clauses.flatMap Clause.vars).filter b.activity.contains) b.var)
      (hold : b.activity.get? b.var = some a) (hkeys : after.keys = b.activity.keys)
      (hafter : ∀ x, after.get? x = if b.var = x then some (a + 1) else b.activity.get? x)

theorem value_of_get? {a : Int} (h : t.get? v = some a) : value t v = a := by
  rw [value, h, Option.getD_some]

theorem known_eq_map (table : Activity) (cs : List Clause) :
    known table cs = ((varsOf cs).filter table.contains).map fun v => (v, value table v) := by
  rw [known_eq]
  induction varsOf cs with
  | nil => rfl
  | cons v rest ih =>
    rw [List.filterMap_cons]
    cases hv : table.get? v with
    | none =>
      rw [List.filter_cons_of_neg (by simp [Table.contains, hv])]
      exact ih
    | some a =>
      rw [List.filter_cons_of_pos (by simp [Table.contains, hv]), List.map_cons,
        value_of_get? hv, ← ih]
      rfl

/-- A variable with a value is preferred, otherwise the clauses decide. -/
theorem pickActivity_eq (table : Activity) (cs : List Clause) :
    pickActivity table cs = (firstMax (value table) ((varsOf cs).filter table.contains)).or
      (firstMax (mentions cs) (varsOf cs)) := by
  unfold pickActivity
  rw [known_eq_map, counted_eq, firstMax_map, firstMax_map]
  cases firstMax (value table) ((varsOf cs).filter table.contains) with
  | none =>
    rw [Option.none_or, Option.map_map]
    exact Option.map_id'
  | some v => rfl

theorem pickActivity_of_pick {cs : List Clause} (h : activity.pick t cs = .ok (some v)) :
    pickActivity t cs = some v := by
  rw [pick] at h
  split at h
  · cases h
    assumption
  · cases h

/-- The heuristic enters or raises the variable that it picks. -/
theorem scored_learn {b : Branching} (h : b.WellPicked activity) :
    Scored b (activity.learn b.activity b.var) := by
  have hpick := pickActivity_of_pick h.picked
  rw [pickActivity_eq] at hpick
  cases hknown : firstMax (value b.activity)
      ((varsOf b.node.clauses).filter b.activity.contains) with
  | none =>
    rw [hknown, Option.none_or] at hpick
    have hnew : ∀ x ∈ b.node.vars, x ∉ b.activity.keys := by
      intro x hx hkey
      have hnone := List.filter_eq_nil_iff.1 (firstMax_eq_none_iff.1 hknown) x hx
      exact hnone ((b.activity.contains_iff x).2 hkey)
    have habsent := hnew b.var h.occurs
    refine .entered hnew (FirstMax.of_varsOf hpick) ?_
    rw [learn, Table.get?_eq_none_iff.2 habsent]
    exact Table.put_of_notMem 0 habsent
  | some v =>
    rw [hknown, Option.some_or] at hpick
    cases hpick
    have hmax := FirstMax.of_filter_varsOf hknown
    have hkey := (List.mem_filter.1 (firstMax_mem hknown)).2
    rw [Table.contains_iff] at hkey
    obtain ⟨a, ha⟩ := Table.mem_keys_iff.1 hkey
    refine .raised a hmax ha ?_ ?_
    · rw [learn, ha]
      exact (Table.keys_insert _ _ _).trans (if_pos hkey)
    · intro x
      rw [learn, ha]
      exact Table.get?_insert _ _ _ _

/-- A decision adds one to the keys and values together. -/
theorem total_learn (t : Activity) (v : Int) : total (activity.learn t v) = total t + 1 := by
  rw [learn]
  split
  · rename_i a ha
    have htotal := total_insert t v (a + 1)
    rw [value_of_get? ha, if_pos (Table.mem_keys_iff.2 ⟨a, ha⟩)] at htotal
    omega
  · rename_i hnone
    have htotal := total_insert t v 0
    rw [value, hnone, Option.getD_none, if_neg (Table.get?_eq_none_iff.1 hnone)] at htotal
    omega

theorem grows_learn (t : Activity) (v : Int) : Grows t (activity.learn t v) := by
  intro x a hx
  rw [learn]
  by_cases hvar : v = x
  · subst hvar
    rw [hx]
    exact ⟨a + 1, by rw [Table.get?_insert, if_pos rfl], by omega⟩
  · refine ⟨a, ?_, Int.le_refl a⟩
    split <;> rw [Table.get?_insert, if_neg hvar, hx]

theorem mem_keys_learn {x : Int} (h : x ∈ (activity.learn t v).keys) : x ∈ t.keys ∨ x = v := by
  rw [Table.mem_keys_iff, learn] at h
  obtain ⟨a, ha⟩ := h
  by_cases hvar : v = x
  · exact .inr hvar.symm
  · refine .inl (Table.mem_keys_iff.2 ⟨a, ?_⟩)
    split at ha <;> rwa [Table.get?_insert, if_neg hvar] at ha

end Heuristic

namespace Node

theorem Descends.vars_subset {n m : Node} {fixed : List Literal} (h : n.Descends m fixed) :
    m.vars ⊆ n.vars := by
  intro x hx
  rw [h.reached] at hx
  exact (mem_vars_fixAll hx).1

end Node

namespace Search

open Heuristic

/-- The table that a run reads and leaves, decision by decision, between the table of the context
it starts from and that of its outcome. -/
structure Ledger (ctx : Context) (n : Node) (bs : List Branching) (out : Outcome) : Prop where
  first : activityAfter bs out 0 = ctx.activity
  last : activityAfter bs out bs.length = out.context.activity
  reads : ∀ k b, bs[k]? = some b → b.activity = activityAfter bs out k
  scored : ∀ k b, bs[k]? = some b → Scored b (activityAfter bs out (k + 1))
  total_eq : ∀ k ≤ bs.length, total (activityAfter bs out k) = total ctx.activity + k
  grows : ∀ k ≤ bs.length, ∀ j ≤ k, Grows (activityAfter bs out j) (activityAfter bs out k)
  keys_subset : ∀ k ≤ bs.length, ∀ x ∈ (activityAfter bs out k).keys,
    x ∈ ctx.activity.keys ∨ x ∈ n.vars

theorem activity_eq_activityAfter {bs : List Branching} {out : Outcome} {k : ℕ} {b : Branching}
    (hb : bs[k]? = some b) : b.activity = activityAfter bs out k := by
  rw [activityAfter, hb, Option.map_some, Option.getD_some]

theorem activityAfter_length (bs : List Branching) (out : Outcome) :
    activityAfter bs out bs.length = out.context.activity := by
  rw [activityAfter, List.getElem?_eq_none (Nat.le_refl _), Option.map_none, Option.getD_none]

namespace Trace

variable {stops : Prop} {o : Options} {start : ℕ} {ctx : Context} {frames : List Frame}
  {bs : List Branching} {out : Outcome}

/-- After a decision the table is what the heuristic has learned from it. -/
theorem activityAfter_succ (h : Trace stops o start ctx frames bs out) {k : ℕ} {b : Branching}
    (hb : bs[k]? = some b) :
    activityAfter bs out (k + 1) = o.heuristic.learn b.activity b.var := by
  induction h generalizing k with
  | finished ctx => simp at hb
  | stopped ctx f rest h => simp at hb
  | conflict hc h ih => exact ih hb
  | model ctx f rest hc hs => simp at hb
  | exhausted ctx f rest hc hs hb => simp at hb
  | split l hc hs hbudget hp hv hpos h ih =>
    cases k with
    | zero =>
      -- the rest of the run starts with what the split has taught
      cases hb
      exact h.activityAfter_zero
    | succ k => exact ih hb

/-- A run opens no variable. -/
theorem vars_subset (h : Trace stops o start ctx frames bs out) (vars : List Int)
    (hvars : ∀ f ∈ frames, f.enter.vars ⊆ vars) : ∀ b ∈ bs, b.node.vars ⊆ vars := by
  induction h with
  | finished ctx => exact fun b hb => absurd hb List.not_mem_nil
  | stopped ctx f rest h => exact fun b hb => absurd hb List.not_mem_nil
  | conflict hc h ih => exact ih fun f hf => hvars f (List.mem_cons_of_mem _ hf)
  | model ctx f rest hc hs => exact fun b hb => absurd hb List.not_mem_nil
  | exhausted ctx f rest hc hs hb => exact fun b hb => absurd hb List.not_mem_nil
  | @split ctx f rest bs out l hc hs hb hp hv hpos h ih =>
    rw [List.forall_mem_cons] at hvars
    obtain ⟨fixed, hfixed, -⟩ := exists_descends_simplify o.pureLiterals f.enter
    have hnode : (entered o f).node.vars ⊆ vars := List.Subset.trans hfixed.vars_subset hvars.1
    have hchild : ∀ m : Literal, ((entered o f).node.child m).vars ⊆ vars :=
      fun m x hx => hnode (mem_varsOf_restrict hx).1
    rw [List.forall_mem_cons]
    refine ⟨hnode, ih ?_⟩
    rw [List.forall_mem_cons, List.forall_mem_cons]
    exact ⟨hchild l.negate, hchild l, hvars.2⟩

theorem exists_activityAfter_succ (h : Trace stops o start ctx frames bs out) {k : ℕ}
    (hk : k < bs.length) :
    ∃ b ∈ bs, activityAfter bs out (k + 1) =
      o.heuristic.learn (activityAfter bs out k) b.var := by
  have hb : bs[k]? = some bs[k] := List.getElem?_eq_getElem hk
  refine ⟨bs[k], List.getElem_mem hk, ?_⟩
  rw [h.activityAfter_succ hb, ← activity_eq_activityAfter hb]

variable (ho : o.heuristic = .activity)

include ho

theorem total_activityAfter (h : Trace stops o start ctx frames bs out) (k : ℕ)
    (hk : k ≤ bs.length) : total (activityAfter bs out k) = total ctx.activity + k := by
  induction k with
  | zero =>
    rw [h.activityAfter_zero]
    exact (Int.add_zero _).symm
  | succ k ih =>
    obtain ⟨b, -, hlearn⟩ := h.exists_activityAfter_succ hk
    rw [hlearn, ho, total_learn, ih (Nat.le_of_succ_le hk)]
    omega

theorem grows_activityAfter (h : Trace stops o start ctx frames bs out) (k : ℕ)
    (hk : k ≤ bs.length) (j : ℕ) (hj : j ≤ k) :
    Grows (activityAfter bs out j) (activityAfter bs out k) := by
  induction k, hj using Nat.le_induction with
  | base => exact Grows.refl _
  | succ k hj ih =>
    obtain ⟨b, -, hlearn⟩ := h.exists_activityAfter_succ hk
    rw [hlearn, ho]
    exact (ih (Nat.le_of_succ_le hk)).trans (grows_learn _ _)

theorem mem_keys_activityAfter (h : Trace stops o start ctx frames bs out) (vars : List Int)
    (hvars : ∀ f ∈ frames, f.enter.vars ⊆ vars) (k : ℕ) (hk : k ≤ bs.length) :
    ∀ x ∈ (activityAfter bs out k).keys, x ∈ ctx.activity.keys ∨ x ∈ vars := by
  induction k with
  | zero =>
    rw [h.activityAfter_zero]
    exact fun x hx => .inl hx
  | succ k ih =>
    obtain ⟨b, hb, hlearn⟩ := h.exists_activityAfter_succ hk
    intro x hx
    rw [hlearn, ho] at hx
    rcases mem_keys_learn hx with hold | rfl
    · exact ih (Nat.le_of_succ_le hk) x hold
    · exact .inr (h.vars_subset vars hvars b hb (h.wellPicked b hb).occurs)

theorem ledger {n : Node} (h : Trace stops o start ctx [⟨n, none⟩] bs out) :
    Ledger ctx n bs out where
  first := h.activityAfter_zero
  last := activityAfter_length bs out
  reads _ _ hb := activity_eq_activityAfter hb
  scored k b hb := by
    have hpicked := h.wellPicked b (List.mem_of_getElem? hb)
    rw [ho] at hpicked
    rw [h.activityAfter_succ hb, ho]
    exact scored_learn hpicked
  total_eq := h.total_activityAfter ho
  grows := h.grows_activityAfter ho
  keys_subset := by
    apply h.mem_keys_activityAfter ho
    intro f hf
    rw [List.mem_singleton] at hf
    subst hf
    exact List.Subset.refl _

end Trace

end Search

/-- The activity heuristic keeps a ledger of the decisions of a search, whoever watches it and
wherever it ends. -/
theorem solve_ledger {σ : Type} (watch : Watch (StateM σ)) (pure : Bool) (budget : Option ℕ)
    (n : Node) (ctx : Context) (s : σ) :
    let o : Options := ⟨.activity, pure, budget⟩
    let out := ((solve watch o n ctx).run s).1
    ∃ bs,
      (solve (noting watch) o n ctx).run (s, []) = (out, ((solve watch o n ctx).run s).2, bs) ∧
      out.context.decisions = ctx.decisions + bs.length ∧ Ledger ctx n bs out ∧
      (ctx = Context.fresh → Heuristic.total out.context.activity = out.context.decisions) := by
  intro o out
  obtain ⟨bs, htrace, hnoted⟩ :=
    exists_trace_noting watch o ctx.decisions ctx [⟨n, none⟩] s []
  rw [List.nil_append] at hnoted
  have hledger : Ledger ctx n bs out := htrace.ledger rfl
  have hdecisions : out.context.decisions = ctx.decisions + bs.length := htrace.decisions_eq
  refine ⟨bs, hnoted, hdecisions, hledger, ?_⟩
  intro hfresh
  have htotal := hledger.total_eq bs.length (Nat.le_refl _)
  have hempty : Heuristic.total Context.fresh.activity = 0 := rfl
  have hzero : Context.fresh.decisions = 0 := rfl
  rw [hledger.last] at htotal
  rw [htotal, hdecisions, hfresh, hempty, hzero]
  omega

end FactorSearch
