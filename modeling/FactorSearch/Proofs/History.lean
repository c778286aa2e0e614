import FactorSearch.Proofs.Trace
import FactorSearch.Session

/-!
Histories of a session: what may be done with a solver before and between its searches.
Searching, simplifying, picking and setting options keep an interrupt in force; only
clearing takes it back. While it is in force every search is given up at once, and all
shared contexts stay as they are.
-/

namespace FactorSearch

open Search

namespace Session

variable {κ : Type} [DecidableEq κ]

/-- One use of a solver. -/
inductive Action (κ : Type) where
  | solve (n : Node) (key : Option κ)
  | propagate (n : Node)
  | eliminate (n : Node)
  | simplify (n : Node)
  | pick (n : Node) (h : Heuristic) (key : κ)
  | updateActivity (key : κ) (pairs : List (Int × Int))
  | configure (options : Options) (timeLimit : TimeLimit) (interruptAfter : Option ℕ)
  | interrupt
  | clearInterrupt

def perform (s : Session κ) : Action κ → Session κ
  | .solve n key => (s.solve n key).2.2
  | .propagate n => (s.propagate n).2
  | .eliminate n => (s.eliminate n).2
  | .simplify n => (s.simplify n).2
  | .pick n h key => (s.pick n h key).2
  | .updateActivity key pairs => s.updateActivity key pairs
  | .configure options timeLimit interruptAfter =>
    { s with options := options, timeLimit := timeLimit, interruptAfter := interruptAfter }
  | .interrupt => s.interrupt
  | .clearInterrupt => s.clearInterrupt

/-- The session after a history, the first action first. -/
def after (s : Session κ) (history : List (Action κ)) : Session κ := history.foldl perform s

/-- The context that a search would use. -/
def searchContext (s : Session κ) : Option κ → Context
  | none => Context.fresh
  | some key => s.context key

variable (s : Session κ)

theorem context_setContext (key x : κ) (ctx : Context) :
    (s.setContext key ctx).context x = if key = x then ctx else s.context x := by
  unfold context setContext
  rw [Table.get?_insert]
  split <;> rfl

theorem currentContext_enter (key : Option κ) :
    (s.enter key).currentContext = s.searchContext key := by
  cases key with
  | none => rfl
  | some key => exact (s.context_setContext key key _).trans (if_pos rfl)

theorem context_enter (key : Option κ) (x : κ) : (s.enter key).context x = s.context x := by
  cases key with
  | none => rfl
  | some key =>
    change (s.setContext key (s.context key)).context x = _
    rw [context_setContext]
    split
    · rename_i hx
      rw [hx]
    · rfl

theorem interrupted_setCurrentContext (ctx : Context) :
    (s.setCurrentContext ctx).interrupted = s.interrupted := by
  unfold setCurrentContext
  split <;> rfl

/-- Storing the context that a session has changes no context. -/
theorem context_setCurrentContext_self (x : κ) :
    (s.setCurrentContext s.currentContext).context x = s.context x := by
  unfold setCurrentContext currentContext
  split
  · rfl
  · rename_i key hkey
    rw [context_setContext]
    split
    · rename_i hx
      rw [hx]
    · rfl

theorem interrupted_count (p q : ℕ) : (s.count p q).interrupted = s.interrupted :=
  s.interrupted_setCurrentContext _

theorem interrupted_pick (n : Node) (h : Heuristic) (key : κ) :
    (s.pick n h key).2.interrupted = s.interrupted := by
  unfold pick
  dsimp only
  split <;> rfl

/-- The watched search that a session runs, and what it keeps of it. -/
theorem solve_eq (n : Node) (key : Option κ) :
    s.solve n key =
      let found := (Search.solve (watch (s.timeLimit.passed 0) s.interruptAfter) s.options n
        (s.searchContext key)).run ⟨s.interrupted, []⟩
      (found.1, found.2.decisions.reverse,
        { s.enter key with expired := s.timeLimit.passed 0, interrupted := found.2.interrupted }
          |>.setCurrentContext found.1.context) := by
  rw [← currentContext_enter]
  cases key <;> rfl

/-- Without an interrupt and a time limit the search is watched from its start. -/
theorem solve_of_run {n : Node} {key : Option κ} {out : Outcome} {seen : Observation}
    (hclear : s.interrupted = false) (htime : s.timeLimit = none)
    (h : (Search.solve (watch false s.interruptAfter) s.options n (s.searchContext key)).run
      ⟨false, []⟩ = (out, seen)) :
    (s.solve n key).1 = out ∧ (s.solve n key).2.1 = seen.decisions.reverse ∧
      (s.solve n key).2.2.interrupted = seen.interrupted := by
  have hfound : (Search.solve (watch (s.timeLimit.passed 0) s.interruptAfter) s.options n
      (s.searchContext key)).run ⟨s.interrupted, []⟩ = (out, seen) := by
    rw [hclear, htime]
    exact h
  rw [solve_eq, hfound]
  exact ⟨rfl, rfl, interrupted_setCurrentContext _ _⟩

theorem solve_of_interrupted (h : s.interrupted = true) (n : Node) (key : Option κ) :
    (s.solve n key).1 = ⟨.aborted, s.searchContext key⟩ ∧ (s.solve n key).2.1 = [] ∧
      (s.solve n key).2.2.interrupted = true ∧
      ∀ x, (s.solve n key).2.2.context x = s.context x := by
  have hstop : ((watch (s.timeLimit.passed 0) s.interruptAfter).proceed.run
      ⟨s.interrupted, []⟩).1 = false := by
    rw [h]
    rfl
  have hrun : (Search.solve (watch (s.timeLimit.passed 0) s.interruptAfter) s.options n
      (s.searchContext key)).run ⟨s.interrupted, []⟩ =
        (⟨.aborted, s.searchContext key⟩, ⟨s.interrupted, []⟩) := run_cons_of_stop _ [] hstop
  rw [solve_eq, hrun]
  refine ⟨rfl, rfl, ?_, fun x => ?_⟩
  · rw [interrupted_setCurrentContext]
    exact h
  · rw [← s.currentContext_enter key]
    exact (context_setCurrentContext_self _ x).trans (s.context_enter key x)

/-- No action but one takes an interrupt back. -/
theorem interrupted_perform (h : s.interrupted = true) {a : Action κ}
    (ha : a ≠ .clearInterrupt) : (s.perform a).interrupted = true := by
  cases a with
  | solve n key => exact (s.solve_of_interrupted h n key).2.2.1
  | propagate n => exact (s.interrupted_count _ _).trans h
  | eliminate n => exact (s.interrupted_count _ _).trans h
  | simplify n => exact (s.interrupted_count _ _).trans h
  | pick n heuristic key => exact (s.interrupted_pick n heuristic key).trans h
  | updateActivity key pairs => exact h
  | configure options timeLimit interruptAfter => exact h
  | interrupt => rfl
  | clearInterrupt => exact absurd rfl ha

theorem interrupted_after {history : List (Action κ)} (h : s.interrupted = true)
    (hhistory : .clearInterrupt ∉ history) : (s.after history).interrupted = true := by
  induction history generalizing s with
  | nil => exact h
  | cons a rest ih =>
    rw [List.mem_cons, not_or] at hhistory
    exact ih _ (s.interrupted_perform h (Ne.symm hhistory.1)) hhistory.2

end Session

end FactorSearch
