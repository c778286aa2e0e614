import FactorSearch.Search

/-!
The search as a recursion on nodes, without a worklist. A node that is split is
searched below its false branch first, and below its true branch only when the
false one has failed; the counters and the activity go from one to the next.
-/

namespace FactorSearch.DepthFirst

open Restriction Search

/-- How a search ended, and its decisions in order. -/
structure Exploration where
  outcome : Outcome
  decisions : List Decision

def explore (o : Options) (start : Nat) (ctx : Context) (n : Node) : Exploration :=
  match step o start ctx ⟨n, none⟩ with
  | (ctx, .conflict) => ⟨⟨.unsatisfiable, ctx⟩, []⟩
  | (ctx, .model m) => ⟨⟨.satisfiable m, ctx⟩, []⟩
  | (ctx, .exhausted) => ⟨⟨.aborted, ctx⟩, []⟩
  | (ctx, .split m l lighter) =>
    have := lighter l.negate rfl
    have := lighter l rfl
    let decision : Decision := ⟨l.var, m.depth, m.vars.length⟩
    let low := explore o start ctx (m.child l.negate)
    match low.outcome.verdict with
    | .unsatisfiable =>
      let high := explore o start low.outcome.context (m.child l)
      ⟨high.outcome, decision :: (low.decisions ++ high.decisions)⟩
    | _ => ⟨low.outcome, decision :: low.decisions⟩
termination_by weight n.clauses

end FactorSearch.DepthFirst
