import FactorSearch.Node
import FactorSearch.ProblemText
import FactorSearch.SolutionText

/-!
A factoring problem: the clauses of a multiplication as a root node, the layout
of its bits, and the solution read last. An assignment found by a search leaves
out variables that no open clause mentioned; completing it sets them to false.
-/

namespace FactorSearch

structure Factorisation where
  root : Node
  layout : BitLayout
  source : Option String
  solution : Option (Table Int Bool)

inductive FactorError where
  | noAssignment
  | missingBit (e : MissingBit)
deriving DecidableEq

structure Factors where
  first : Nat
  second : Nat
  product : Nat
deriving DecidableEq

namespace FactorError

def message : FactorError → String
  | .noAssignment => "No assignment to read the factors from."
  | .missingBit e => e.message

end FactorError

namespace Factorisation

def ofProblem (p : Problem) (source : Option String) : Factorisation :=
  ⟨Node.ofClauses p.clauses, p.layout, source, none⟩

/-- Record what a solution text says. A text that cannot be read changes nothing. -/
def readSolution (f : Factorisation) (text : List Char) (source : Option String) :
    Except SolutionError Factorisation :=
  (fun s => { f with solution := s }) <$> SolutionText.parse source text

def vars (f : Factorisation) : List Int := f.root.vars

def complete (f : Factorisation) (values : Table Int Bool) : Table Int Bool :=
  f.vars.foldl (fun t v => t.insertIfNew v false) values

/-- Every clause of the root has a literal that the assignment makes true. -/
def verify (f : Factorisation) (values : Table Int Bool) : Bool :=
  f.root.clauses.all (fun c => c.literals.any (fun l => values.get? l.var == some l.positive))

/-- The numbers that an assignment, or else the recorded solution, gives to the operands. -/
def factors (f : Factorisation) (values : Option (Table Int Bool)) : Except FactorError Factors :=
  match values <|> f.solution with
  | none => .error .noAssignment
  | some t =>
    let read (vars : List Int) : Except FactorError Nat :=
      (BitLayout.number t vars).mapError FactorError.missingBit
    do
      let first ← read f.layout.first
      let second ← read f.layout.second
      let product ← read f.layout.output
      return ⟨first, second, product⟩

end Factorisation

end FactorSearch
