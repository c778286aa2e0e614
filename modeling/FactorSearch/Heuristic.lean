import FactorSearch.Restriction
import FactorSearch.Table
import FactorSearch.Tally

/-!
Branching heuristics: which variable to split on next. All ties go to the
variable that appears first, so a search is determined by its input. On clauses
of which none is empty, and at least one exists, every heuristic picks a
variable that occurs.
-/

namespace FactorSearch

open Restriction

inductive Heuristic where
  | weighted
  | activity
  | first
deriving DecidableEq

/-- How often each variable has been picked again since it was entered. -/
abbrev Activity := Table Int Int

inductive PickError where
  | noClause
  | noCandidate
  | noLiteral
deriving DecidableEq

inductive HeuristicError where
  | unknown (name : String)
  | notAName (kind : String)

namespace PickError

def message : PickError → String
  | .noClause => "min() arg is an empty sequence"
  | .noCandidate => "max() arg is an empty sequence"
  | .noLiteral => ""

end PickError

namespace HeuristicError

def message : HeuristicError → String
  | .unknown name =>
    "Unknown heuristic '" ++ name ++ "', expected one of ['activity', 'first', 'weighted']."
  | .notAName kind => "Expected a heuristic name or BranchHeuristic, got " ++ kind ++ "."

end HeuristicError

namespace Heuristic

def name : Heuristic → String
  | .weighted => "weighted"
  | .activity => "activity"
  | .first => "first"

def names : List String := ["activity", "first", "weighted"]

def standard : Heuristic := .weighted

def ofName : String → Except HeuristicError Heuristic
  | "weighted" => .ok .weighted
  | "activity" => .ok .activity
  | "first" => .ok .first
  | other => .error (.unknown other)

/-- The first entry whose score no other entry exceeds. -/
def firstMax {α : Type} (score : α → Int) : List α → Option α
  | [] => none
  | a :: rest =>
    match firstMax score rest with
    | none => some a
    | some b => if score a < score b then some b else some a

/-- The clauses of least size. -/
def shortest (cs : List Clause) : List Clause :=
  let least := (cs.map Clause.size).min?
  cs.filter (fun c => least == some c.size)

/-- Occurrences come first, an even balance of the two signs second. -/
def score (negated plain : Nat) : Nat := 65536 * (negated + plain) + negated * plain

/-- The score of a variable by its occurrences in the given clauses. -/
def weight (cs : List Clause) (v : Int) : Nat :=
  score (occurrences cs v false) (occurrences cs v true)

def pickWeighted (cs : List Clause) : Option Int :=
  let counts := Tally.ofClauses (shortest cs)
  let scored := (varsOf cs).map fun v =>
    let (n, p) := counts.count v
    (v, (score n p : Int))
  (firstMax Prod.snd scored).map Prod.fst

theorem pickWeighted_eq (cs : List Clause) :
    pickWeighted cs =
      (firstMax Prod.snd ((varsOf cs).map (fun v => (v, (weight (shortest cs) v : Int))))).map
        Prod.fst := by
  simp only [pickWeighted, Tally.count_ofClauses, weight]

/-- The variables of the clauses that have a value in the table, with it. -/
def known (table : Activity) (cs : List Clause) : List (Int × Int) :=
  let values := table.index
  (varsOf cs).filterMap (fun v => values[v]?.map (fun a => (v, a)))

theorem known_eq (table : Activity) (cs : List Clause) :
    known table cs = (varsOf cs).filterMap (fun v => (table.get? v).map (fun a => (v, a))) := by
  simp only [known, Table.getElem?_index]

def counted (cs : List Clause) : List (Int × Int) :=
  let counts := Tally.ofClauses cs
  (varsOf cs).map fun v =>
    let (n, p) := counts.count v
    (v, (n + p : Nat))

theorem counted_eq (cs : List Clause) :
    counted cs = (varsOf cs).map (fun v => (v, (cs.countP (fun c => c.contains v) : Int))) := by
  simp only [counted, Tally.count_ofClauses, occurrences_add]

def pickActivity (table : Activity) (cs : List Clause) : Option Int :=
  match firstMax Prod.snd (known table cs) with
  | some e => some e.1
  | none => (firstMax Prod.snd (counted cs)).map Prod.fst

def pickFirst (cs : List Clause) : Option Int :=
  cs.head?.bind (fun c => c.first?.map Literal.var)

/-- The variable to split on. Clauses without any variable give the weighted
heuristic nothing to pick, which is no error as long as there is a clause. -/
def pick (h : Heuristic) (table : Activity) (cs : List Clause) : Except PickError (Option Int) :=
  match h with
  | .weighted => if cs.isEmpty then .error .noClause else .ok (pickWeighted cs)
  | .activity =>
    match pickActivity table cs with
    | some v => .ok (some v)
    | none => .error .noCandidate
  | .first =>
    match pickFirst cs with
    | some v => .ok (some v)
    | none => .error .noLiteral

/-- The table after a pick: a picked variable enters at zero or gains one. -/
def learn (h : Heuristic) (table : Activity) (v : Int) : Activity :=
  match h with
  | .activity =>
    match table.get? v with
    | some a => table.insert v (a + 1)
    | none => table.insert v 0
  | _ => table

theorem firstMax_mem {α : Type} {score : α → Int} {as : List α} {a : α}
    (h : firstMax score as = some a) : a ∈ as := by
  induction as generalizing a with
  | nil => simp [firstMax] at h
  | cons b rest ih =>
    simp only [firstMax] at h
    split at h
    · cases h; exact List.mem_cons_self
    · rename_i c hc
      split at h
      · cases h; exact List.mem_cons_of_mem _ (ih hc)
      · cases h; exact List.mem_cons_self

theorem firstMax_isSome {α : Type} (score : α → Int) (as : List α) (h : as ≠ []) :
    ∃ a, firstMax score as = some a := by
  cases as with
  | nil => exact absurd rfl h
  | cons a rest =>
    simp only [firstMax]
    split
    · exact ⟨a, rfl⟩
    · split
      · exact ⟨_, rfl⟩
      · exact ⟨a, rfl⟩

theorem varsOf_ne_nil {cs : List Clause} (hne : cs ≠ [])
    (hfull : ∀ c ∈ cs, c.isEmpty = false) : varsOf cs ≠ [] := by
  obtain ⟨c, hc⟩ := List.exists_mem_of_ne_nil cs hne
  have hlits : c.literals ≠ [] := by
    have := hfull c hc
    intro h
    simp [Clause.isEmpty, h] at this
  obtain ⟨l, hl⟩ := List.exists_mem_of_ne_nil _ hlits
  have : l.var ∈ varsOf cs := mem_varsOf.2 ⟨c, hc, List.mem_map_of_mem hl⟩
  exact List.ne_nil_of_mem this

theorem pickWeighted_mem {cs : List Clause} {v : Int} (h : pickWeighted cs = some v) :
    v ∈ varsOf cs := by
  rw [pickWeighted_eq] at h
  obtain ⟨e, he, rfl⟩ := Option.map_eq_some_iff.1 h
  obtain ⟨w, hw, rfl⟩ := List.mem_map.1 (firstMax_mem he)
  exact hw

theorem pickActivity_mem {table : Activity} {cs : List Clause} {v : Int}
    (h : pickActivity table cs = some v) : v ∈ varsOf cs := by
  unfold pickActivity at h
  split at h
  · rename_i e he
    cases h
    rw [known_eq] at he
    obtain ⟨w, hw, hv⟩ := List.mem_filterMap.1 (firstMax_mem he)
    obtain ⟨a, -, rfl⟩ := Option.map_eq_some_iff.1 hv
    exact hw
  · obtain ⟨e, he, rfl⟩ := Option.map_eq_some_iff.1 h
    obtain ⟨w, hw, rfl⟩ := List.mem_map.1 (firstMax_mem he)
    exact hw

theorem pickFirst_mem {cs : List Clause} {v : Int} (h : pickFirst cs = some v) :
    v ∈ varsOf cs := by
  obtain ⟨c, hc, hv⟩ := Option.bind_eq_some_iff.1 h
  obtain ⟨l, hl, rfl⟩ := Option.map_eq_some_iff.1 hv
  exact mem_varsOf.2 ⟨c, List.mem_of_mem_head? hc,
    List.mem_map_of_mem (List.mem_of_mem_head? hl)⟩

/-- On clauses of which none is empty a variable that occurs is picked. -/
theorem exists_pick (h : Heuristic) (table : Activity) {cs : List Clause} (hne : cs ≠ [])
    (hfull : ∀ c ∈ cs, c.isEmpty = false) :
    ∃ v, h.pick table cs = .ok (some v) ∧ v ∈ varsOf cs := by
  have hvars := varsOf_ne_nil hne hfull
  cases h with
  | weighted =>
    obtain ⟨e, he⟩ := firstMax_isSome Prod.snd
      ((varsOf cs).map (fun v => (v, (weight (shortest cs) v : Int)))) (by simpa using hvars)
    have hp : pickWeighted cs = some e.1 := by rw [pickWeighted_eq, he]; rfl
    exact ⟨e.1, by simp [pick, hne, hp], pickWeighted_mem hp⟩
  | activity =>
    have : ∃ v, pickActivity table cs = some v := by
      unfold pickActivity
      split
      · exact ⟨_, rfl⟩
      · obtain ⟨e, he⟩ := firstMax_isSome Prod.snd (counted cs) (by simpa [counted] using hvars)
        exact ⟨e.1, by simp [he]⟩
    obtain ⟨v, hv⟩ := this
    exact ⟨v, by simp [pick, hv], pickActivity_mem hv⟩
  | first =>
    cases cs with
    | nil => exact absurd rfl hne
    | cons c rest =>
      have hc := hfull c List.mem_cons_self
      cases hl : c.literals with
      | nil => simp [Clause.isEmpty, hl] at hc
      | cons l ls =>
        have hp : pickFirst (c :: rest) = some l.var := by simp [pickFirst, Clause.first?, hl]
        exact ⟨l.var, by simp [pick, hp], pickFirst_mem hp⟩

end Heuristic

end FactorSearch
