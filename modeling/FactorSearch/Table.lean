import Std.Data.HashMap

/-!
Finite maps that remember the order in which their keys arrived. No key occurs
twice; binding an old key again changes its value and keeps its place.
-/

namespace FactorSearch

structure Table (κ α : Type) where
  entries : List (κ × α)
  nodup_keys : (entries.map Prod.fst).Nodup

namespace Table

variable {κ α : Type} [DecidableEq κ]

def empty : Table κ α := ⟨[], List.nodup_nil⟩

def keys (t : Table κ α) : List κ := t.entries.map Prod.fst

def lookup (k : κ) : List (κ × α) → Option α
  | [] => none
  | (k', a) :: rest => if k' = k then some a else lookup k rest

def get? (t : Table κ α) (k : κ) : Option α := lookup k t.entries

def contains (t : Table κ α) (k : κ) : Bool := (t.get? k).isSome

def put (k : κ) (a : α) : List (κ × α) → List (κ × α)
  | [] => [(k, a)]
  | (k', a') :: rest => if k' = k then (k', a) :: rest else (k', a') :: put k a rest

theorem map_fst_put (k : κ) (a : α) (entries : List (κ × α)) :
    (put k a entries).map Prod.fst =
      if k ∈ entries.map Prod.fst then entries.map Prod.fst
      else entries.map Prod.fst ++ [k] := by
  induction entries with
  | nil => simp [put]
  | cons e rest ih =>
    obtain ⟨k', a'⟩ := e
    by_cases h : k' = k
    · simp [put, h]
    · have h' : ¬ k = k' := fun e => h e.symm
      simp only [put, h, if_false, List.map_cons, ih, List.mem_cons, h', false_or]
      split <;> simp

theorem nodup_put (k : κ) (a : α) {entries : List (κ × α)}
    (h : (entries.map Prod.fst).Nodup) : ((put k a entries).map Prod.fst).Nodup := by
  rw [map_fst_put]
  split
  · exact h
  · rename_i hk
    rw [List.nodup_append]
    refine ⟨h, by simp, ?_⟩
    intro x hx y hy
    simp only [List.mem_singleton] at hy
    subst hy
    intro e
    exact hk (e ▸ hx)

/-- Bind a key; a new key goes to the end. -/
def insert (t : Table κ α) (k : κ) (a : α) : Table κ α :=
  ⟨put k a t.entries, nodup_put k a t.nodup_keys⟩

/-- Bind a key only if it has no value yet. -/
def insertIfNew (t : Table κ α) (k : κ) (a : α) : Table κ α :=
  if t.contains k then t else t.insert k a

/-- Bind every pair in order; the last binding of a key wins. -/
def insertAll (t : Table κ α) (pairs : List (κ × α)) : Table κ α :=
  pairs.foldl (fun t p => t.insert p.1 p.2) t

def ofList (pairs : List (κ × α)) : Table κ α := empty.insertAll pairs

theorem lookup_put (k k' : κ) (a : α) (entries : List (κ × α)) :
    lookup k' (put k a entries) = if k = k' then some a else lookup k' entries := by
  induction entries with
  | nil => simp [put, lookup]
  | cons e rest ih =>
    obtain ⟨k'', a'⟩ := e
    by_cases h : k'' = k
    · subst h
      by_cases hk : k'' = k' <;> simp [put, lookup, hk]
    · by_cases hk : k'' = k'
      · subst hk
        have h' : ¬ k = k'' := fun e => h e.symm
        simp [put, lookup, h, h']
      · simp [put, lookup, h, hk, ih]

@[simp] theorem get?_empty (k : κ) : (empty : Table κ α).get? k = none := rfl

@[simp] theorem get?_insert (t : Table κ α) (k k' : κ) (a : α) :
    (t.insert k a).get? k' = if k = k' then some a else t.get? k' :=
  lookup_put k k' a t.entries

theorem keys_insert (t : Table κ α) (k : κ) (a : α) :
    (t.insert k a).keys = if k ∈ t.keys then t.keys else t.keys ++ [k] :=
  map_fst_put k a t.entries

theorem lookup_isSome_iff (k : κ) (entries : List (κ × α)) :
    (lookup k entries).isSome ↔ k ∈ entries.map Prod.fst := by
  induction entries with
  | nil => simp [lookup]
  | cons e rest ih =>
    obtain ⟨k', a⟩ := e
    by_cases h : k' = k
    · simp [lookup, h]
    · have h' : ¬ k = k' := fun e => h e.symm
      simp only [lookup, h, if_false, List.map_cons, List.mem_cons, h', false_or, ih]

theorem contains_iff (t : Table κ α) (k : κ) : t.contains k ↔ k ∈ t.keys :=
  lookup_isSome_iff k t.entries

/-- The bindings arranged for many look-ups. -/
def index [Hashable κ] (t : Table κ α) : Std.HashMap κ α :=
  t.entries.foldr (fun e m => m.insert e.1 e.2) ∅

theorem getElem?_index [Hashable κ] [LawfulHashable κ] (t : Table κ α) (k : κ) :
    t.index[k]? = t.get? k := by
  simp only [index, get?]
  induction t.entries with
  | nil => simp [lookup]
  | cons e rest ih =>
    by_cases h : e.1 = k <;> simp [lookup, Std.HashMap.getElem?_insert, h, ih]

/-- The bindings in increasing order of their integer keys. -/
def sorted (t : Table Int α) : List (Int × α) :=
  t.entries.mergeSort (fun a b => a.1 ≤ b.1)

end Table

end FactorSearch
