/-!
Boolean circuits as clauses. The output of every gate is a fresh variable, and
its clauses allow exactly the output that the gate computes from its inputs.
Inputs are signed integers, so a gate may read the negation of a variable.
-/

namespace FactorSearch

structure Circuit where
  /-- The number of variables, which is also the newest variable. -/
  size : Nat
  /-- The clauses, the latest first. -/
  latest : List (List Int)

/-- The two outputs of an adder. -/
structure Adder where
  sum : Int
  carry : Int

namespace Circuit

def empty : Circuit := ⟨0, []⟩

def newVar (c : Circuit) : Int × Circuit := (c.size + 1, { c with size := c.size + 1 })

/-- The clauses in the order in which they were added. -/
def clauses (c : Circuit) : List (List Int) := c.latest.reverse

def add (c : Circuit) (clause : List Int) : Circuit := { c with latest := clause :: c.latest }

/-- Add a gate, given its clauses as a function of its output. -/
def gate (c : Circuit) (clausesOf : Int → List (List Int)) : Int × Circuit :=
  let out : Int := c.size + 1
  (out, ⟨c.size + 1, (clausesOf out).reverse ++ c.latest⟩)

@[simp] theorem clauses_add (c : Circuit) (clause : List Int) :
    (c.add clause).clauses = c.clauses ++ [clause] := by
  simp [clauses, add]

@[simp] theorem clauses_newVar (c : Circuit) : c.newVar.2.clauses = c.clauses := rfl

@[simp] theorem clauses_gate (c : Circuit) (clausesOf : Int → List (List Int)) :
    (c.gate clausesOf).2.clauses = c.clauses ++ clausesOf (c.size + 1) := by
  simp [clauses, gate]

def andClauses (x y out : Int) : List (List Int) := [[-out, x], [-out, y], [out, -x, -y]]

def xorClauses (x y out : Int) : List (List Int) :=
  [[-out, x, y], [-out, -x, -y], [out, -x, y], [out, x, -y]]

/-- True exactly when an odd number of the three inputs is. -/
def parityClauses (x y z out : Int) : List (List Int) :=
  [[-out, x, y, z], [-out, -x, -y, z], [-out, -x, y, -z], [-out, x, -y, -z],
    [out, -x, y, z], [out, x, -y, z], [out, x, y, -z], [out, -x, -y, -z]]

/-- True exactly when at least two of the three inputs are. -/
def majorityClauses (x y z out : Int) : List (List Int) :=
  [[-out, x, y], [-out, x, z], [-out, y, z], [out, -x, -y], [out, -x, -z], [out, -y, -z]]

def andGate (c : Circuit) (x y : Int) : Int × Circuit := c.gate (andClauses x y)

def xorGate (c : Circuit) (x y : Int) : Int × Circuit := c.gate (xorClauses x y)

def halfAdder (c : Circuit) (x y : Int) : Adder × Circuit :=
  let (sum, c) := c.xorGate x y
  let (carry, c) := c.andGate x y
  (⟨sum, carry⟩, c)

def fullAdder (c : Circuit) (x y z : Int) : Adder × Circuit :=
  let (sum, c) := c.gate (parityClauses x y z)
  let (carry, c) := c.gate (majorityClauses x y z)
  (⟨sum, carry⟩, c)

def largest (start : Nat) (clause : List Int) : Nat :=
  clause.foldl (fun n l => max n l.natAbs) start

/-- The largest variable that occurs in a list of clauses. -/
def largestVar (clauses : List (List Int)) : Nat := clauses.foldl largest 0

end Circuit

end FactorSearch
