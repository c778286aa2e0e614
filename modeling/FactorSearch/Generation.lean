import FactorSearch.CommandLine
import FactorSearch.Fault
import FactorSearch.Host

/-!
Writing multiplication problems to files, one for each product. The products are
listed or drawn by the host, which the seed is handed to.
-/

namespace FactorSearch

inductive ProductChoice where
  | listed (products : List Int)
  | drawn (count : Setting Int)

structure GenerationRequest where
  firstBits : Setting Int
  secondBits : Setting Int
  products : ProductChoice
  nontrivial : Bool
  seed : Setting Int
  folder : Setting Path

namespace GenerationRequest

def firstBitsSwitch : Switch := ⟨["--first-bits"], .one, .integer, true⟩

def secondBitsSwitch : Switch := ⟨["--second-bits"], .one, .integer, true⟩

def productsSwitch : Switch := ⟨["--products"], .many, .integer, false⟩

def countSwitch : Switch := ⟨["--count"], .one, .integer, false⟩

def nontrivialSwitch : Switch := Switch.flag "--nontrivial"

def seedSwitch : Switch := ⟨["--seed"], .one, .integer, false⟩

def folderSwitch : Switch := ⟨["--out-dir"], .one, .text, true⟩

def grammar : Grammar where
  switches := [Switch.help, firstBitsSwitch, secondBitsSwitch, productsSwitch, countSwitch,
    nontrivialSwitch, seedSwitch, folderSwitch]
  free := none
  exclusive := [productsSwitch, countSwitch]

def ofParsed (p : CommandLine.Parsed) : GenerationRequest where
  firstBits := p.setting firstBitsSwitch 0 CommandLine.integerOf
  secondBits := p.setting secondBitsSwitch 0 CommandLine.integerOf
  products :=
    match p.last? productsSwitch with
    | some values => .listed (values.map CommandLine.integerOf)
    | none => .drawn (p.setting countSwitch 0 CommandLine.integerOf)
  nontrivial := p.has nontrivialSwitch
  seed := p.setting seedSwitch 42 CommandLine.integerOf
  folder := p.setting folderSwitch (Path.ofText "") Path.ofText

/-- The bits of both factors. They are added up first; the sum of two bare settings
is bare and fails at its first use. -/
def bits (r : GenerationRequest) (use : BareUse) : Except BareUse (Int × Int) :=
  match r.firstBits, r.secondBits with
  | .given a, .given b => .ok (a, b)
  | .bare, .given _ => .error .leftTerm
  | .given _, .bare => .error .rightTerm
  | .bare, .bare => .error use

end GenerationRequest

namespace Generation

/-- A seed is a natural number, or there is none. -/
def seedOf : Setting Int → Except DrawError (Option Nat)
  | .given n => if n < 0 then .error .negativeSeed else .ok (some n.toNat)
  | .bare => .ok none

/-- The bound of the numbers is a power of two, which is formed before anything else. -/
def checkShift (room : Nat) (shift : Int) : Except DrawError Unit :=
  if shift < 0 then .error .negativeShift
  else (Capacity.checkPower room shift.toNat).mapError DrawError.capacity

/-- The bound of the numbers. Some can be drawn if they lie from two up to below it. -/
def checkRange (shift : Int) : Except DrawError { bound : Nat // 2 < bound } :=
  if 63 < shift then .error .outOfBounds
  else if h : 2 < Nat.pow 2 shift.toNat then .ok ⟨Nat.pow 2 shift.toNat, h⟩
  else .error .emptyRange

def checkCount (room : Nat) (n : Int) : Except DrawError Unit :=
  match Capacity.checkLength n with
  | .error e => .error (.capacity e)
  | .ok () =>
    if n < 0 then .error .negativeCount
    else (Capacity.checkArray room n.toNat).mapError DrawError.capacity

def fileName (p : Multiplication) : String :=
  "mult_" ++ toString p.firstBits ++ "x" ++ toString p.secondBits ++ "_" ++ toString p.product
    ++ ".cnf"

variable {m : Type → Type} [Monad m] [Host m]

def lifted {ε α : Type} (f : ε → Fault) (x : Except ε α) : ExceptT Fault m α :=
  ExceptT.mk (pure (x.mapError f))

/-- Draw numbers. The range matters only if some are wanted. -/
def draw (r : GenerationRequest) (count : Setting Int) : ExceptT Fault m (List Int) := do
  let seed ← lifted Fault.draw (seedOf r.seed)
  let (a, b) ← lifted Fault.bare (r.bits .shift)
  lifted Fault.draw (checkShift (Host.room m) (a + b))
  match count with
  | .given n =>
    if n = 0 then return []
    let bound ← lifted Fault.draw (checkRange (a + b))
    lifted Fault.draw (checkCount (Host.room m) n)
    let d ← Host.draw (m := m) seed bound n.toNat bound.property
    return d.numbers.map Int.ofNat
  | .bare =>
    let _ ← lifted Fault.draw (checkRange (a + b))
    throw (.bare .count)

/-- Write the problem of one product. -/
def write (r : GenerationRequest) (product : Int) : ExceptT Fault m Unit := do
  let access (x : ExceptT AccessError m Unit) : ExceptT Fault m Unit :=
    ExceptT.mk do return (← x.run).mapError Fault.access
  match r.folder with
  | .bare => throw (.bare .folder)
  | .given folder => do
    access (Host.ensureDirectory folder)
    let (a, b) ← lifted Fault.bare (r.bits .below)
    let p : Multiplication := ⟨product, a, b, r.nontrivial⟩
    let d ← lifted Fault.multiplication (p.dimacs (Host.room m))
    access (Host.writeFile (folder.join (fileName p)).text d.text)

def products (r : GenerationRequest) : ExceptT Fault m (List Int) :=
  match r.products with
  | .listed ns => pure ns
  | .drawn count => draw r count

def run (r : GenerationRequest) : ExceptT Fault m Unit := do
  let ns ← products r
  ns.forM (write r)

end Generation

end FactorSearch
