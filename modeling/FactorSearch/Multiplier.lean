import FactorSearch.BitLayout
import FactorSearch.Capacity
import FactorSearch.Dimacs
import FactorSearch.Text.Integer

/-!
The multiplication of two unsigned numbers as clauses. Partial products are
collected by their weight and added up column by column, from the least weight
on; the carries of a column go to the end of the next. The output bits are then
fixed to the product that is to be factored.
-/

namespace FactorSearch

structure Multiplication where
  product : Int
  firstBits : Int
  secondBits : Int
  /-- Whether zero and one are excluded as factors. -/
  nontrivial : Bool

inductive MultiplicationError where
  | noBits
  | tooLarge (product : Int) (width : Int)
  | tooNarrow
  | capacity (e : CapacityError)
  | longProduct
deriving DecidableEq

namespace MultiplicationError

def message : MultiplicationError → String
  | .noBits => "Both inputs need at least one bit."
  | .tooLarge product width =>
    match Text.integerText? product, Text.integerText? width with
    | some product, some width =>
      "Product " ++ product ++ " does not fit in " ++ width ++ " output bits."
    | _, _ => Text.longInteger
  | .tooNarrow => "Excluding the factor 1 needs at least two bits per input."
  | .capacity e => e.message
  | .longProduct => Text.longInteger

end MultiplicationError

namespace Multiplier

/-- A column of bits of one weight, added up: the bit that is left, the carries
in order, and the circuit with the adders. -/
structure ColumnSum where
  bit : Option Int
  carries : List Int
  circuit : Circuit

def addColumn (c : Circuit) (column : List Int) : ColumnSum :=
  match column with
  | [] => ⟨none, [], c⟩
  | [x] => ⟨some x, [], c⟩
  | [x, y] =>
    let (a, c) := c.halfAdder x y
    ⟨some a.sum, [a.carry], c⟩
  | x :: y :: z :: rest =>
    let (a, c) := c.fullAdder x y z
    let s := addColumn c (rest ++ [a.sum])
    { s with carries := a.carry :: s.carries }
termination_by column.length
decreasing_by simp

theorem length_carries_lt (c : Circuit) (column : List Int) (h : column ≠ []) :
    (addColumn c column).carries.length < column.length := by
  fun_induction addColumn c column with
  | case1 => exact absurd rfl h
  | case2 => simp
  | case3 => simp
  | case4 c x y z rest a c' ha s ih =>
    have := ih (by simp)
    change (addColumn c' (rest ++ [a.sum])).carries.length + 1 < rest.length + 3
    simp only [List.length_append, List.length_cons, List.length_nil] at this
    omega

/-- Add up the columns in order of weight, with the carries into the first of
them. As long as carries are left there is another column. -/
def addColumns (c : Circuit) (carries : List Int) (columns : List (List Int)) :
    List (Option Int) × Circuit :=
  match columns with
  | column :: rest =>
    let s := addColumn c (column ++ carries)
    let (bits, c) := addColumns s.circuit s.carries rest
    (s.bit :: bits, c)
  | [] =>
    if h : carries = [] then ([], c)
    else
      have := length_carries_lt c carries h
      let s := addColumn c carries
      let (bits, c) := addColumns s.circuit s.carries []
      (s.bit :: bits, c)
termination_by (columns.length, carries.length)

def newVars (c : Circuit) : Nat → List Int × Circuit
  | 0 => ([], c)
  | n + 1 =>
    let (v, c) := c.newVar
    let (vs, c) := newVars c n
    (v :: vs, c)

/-- The partial products of one bit with the bits of the other number. -/
def productRow (c : Circuit) (x : Int) : List Int → List Int × Circuit
  | [] => ([], c)
  | y :: ys =>
    let (p, c) := c.andGate x y
    let (ps, c) := productRow c x ys
    (p :: ps, c)

def productRows (c : Circuit) (ys : List Int) : List Int → List (List Int) × Circuit
  | [] => ([], c)
  | x :: xs =>
    let (row, c) := productRow c x ys
    let (rows, c) := productRows c ys xs
    (row :: rows, c)

/-- The columns of the given number; row `i` is shifted by `i` places. -/
def columns (width : Nat) (rows : List (List Int)) : List (List Int) :=
  (List.range width).map fun k =>
    rows.zipIdx.filterMap fun (row, i) => if i ≤ k then row[k - i]? else none

def pin (v : Int) (value : Bool) : List Int := if value then [v] else [-v]

/-- Fix the output bits to a product. A column without any bit is zero, and a
fresh variable stands for it. -/
def pinOutput (c : Circuit) (product : Nat) : List (Option Int) → List Int × Circuit
  | [] => ([], c)
  | bit :: rest =>
    let (v, c) := match bit with
      | some v => (v, c)
      | none =>
        let (v, c) := c.newVar
        (v, c.add [-v])
    let c := c.add (pin v (product % 2 = 1))
    let (vs, c) := pinOutput c (product / 2) rest
    (v :: vs, c)

/-- Bits beyond the output are zero. -/
def clearBits (c : Circuit) : List (Option Int) → Circuit
  | [] => c
  | none :: rest => clearBits c rest
  | some v :: rest => clearBits (c.add [-v]) rest

def binary (width n : Nat) : String :=
  String.ofList ((List.range width).reverse.map (fun k => if n.testBit k then '1' else '0'))

def bitList (vars : List Int) : String := "[" ++ ", ".intercalate (vars.map toString) ++ "]"

def annotation (operand : Operand) (vars : List Int) : String :=
  "c Variables for " ++ operand.label ++ " [msb,...,lsb]: " ++ bitList vars

end Multiplier

/-- The circuit of a multiplication and the variables of its operands. -/
structure Multiplier where
  circuit : Circuit
  layout : BitLayout

namespace Multiplier

def build (product firstBits secondBits : Nat) (nontrivial : Bool) : Multiplier :=
  let width := firstBits + secondBits
  let (a, c) := newVars Circuit.empty firstBits
  let (b, c) := newVars c secondBits
  let (rows, c) := productRows c b a
  let (bits, c) := addColumns c [] (columns width rows)
  let (output, c) := pinOutput c product (bits.take width)
  let c := clearBits c (bits.drop width)
  let c := if nontrivial then (c.add (a.drop 1)).add (b.drop 1) else c
  ⟨c, ⟨output.reverse, a.reverse, b.reverse⟩⟩

end Multiplier

namespace Multiplication

def width (p : Multiplication) : Int := p.firstBits + p.secondBits

/-- The text of the circuit, on a host with so much room for the bound of the product. -/
def dimacs (p : Multiplication) (room : Nat := Capacity.usualRoom) :
    Except MultiplicationError Dimacs :=
  if p.firstBits < 1 ∨ p.secondBits < 1 then .error .noBits
  else if p.product < 0 then .error (.tooLarge p.product p.width)
  else
    match Capacity.checkPower room p.width.toNat with
    | .error e => .error (.capacity e)
    | .ok () =>
      if !Capacity.fits p.width.toNat p.product.toNat then .error (.tooLarge p.product p.width)
      else if p.nontrivial ∧ (p.firstBits < 2 ∨ p.secondBits < 2) then .error .tooNarrow
      else
        match Text.integerText? p.product with
        | none => .error .longProduct
        | some product =>
          let m :=
            Multiplier.build p.product.toNat p.firstBits.toNat p.secondBits.toNat p.nontrivial
          .ok {
            comments :=
              ("c Circuit for product = " ++ product ++ " [binary: "
                  ++ Multiplier.binary p.width.toNat p.product.toNat ++ "]")
                :: Operand.all.map (fun o => Multiplier.annotation o (m.layout.bits o))
            clauses := m.circuit.clauses }

end Multiplication

end FactorSearch
