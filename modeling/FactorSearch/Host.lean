import FactorSearch.Capacity
import FactorSearch.FileError
import FactorSearch.Path
import FactorSearch.Text.Blank

/-!
What a command needs from the system that it runs on: files, two streams of text,
random numbers, and measurements that the system may not be able to give.
-/

namespace FactorSearch

/-- So many numbers from two up to below a bound. -/
structure Draw (bound count : Nat) where
  numbers : List Nat
  length_numbers : numbers.length = count
  two_le : ∀ n ∈ numbers, 2 ≤ n
  lt_bound : ∀ n ∈ numbers, n < bound

namespace Draw

variable {bound count : Nat}

def none : Draw bound 0 where
  numbers := []
  length_numbers := rfl
  two_le n hn := by cases hn
  lt_bound n hn := by cases hn

/-- One more number, brought into the range. -/
def add (h : 2 < bound) (n : Nat) (d : Draw bound count) : Draw bound (count + 1) where
  numbers := (2 + n % (bound - 2)) :: d.numbers
  length_numbers := congrArg Nat.succ d.length_numbers
  two_le k hk := by
    rcases List.mem_cons.1 hk with rfl | hk
    · omega
    · exact d.two_le k hk
  lt_bound k hk := by
    rcases List.mem_cons.1 hk with rfl | hk
    · have hmod := Nat.mod_lt n (by omega : 0 < bound - 2)
      omega
    · exact d.lt_bound k hk

end Draw

class Host (m : Type → Type) where
  isDirectory : String → m Bool
  /-- Whether something is at a path. -/
  present : String → ExceptT AccessError m Bool
  listDirectory : String → ExceptT AccessError m (List String)
  /-- The text of a file as it is stored. -/
  readFile : String → ExceptT AccessError m (List Char)
  writeFile : String → String → ExceptT AccessError m Unit
  makeDirectory : String → ExceptT AccessError m Unit
  print : String → m Unit
  printError : String → m Unit
  /-- Microseconds since some moment. -/
  clock : m Nat
  /-- Nanoseconds of work since some moment. -/
  workTime : m (Option Nat)
  /-- Bytes of memory in use. -/
  memory : m (Option Nat)
  showProgress : String → Int → m Unit
  /-- The bytes that there are for one number or one array. -/
  room : Nat
  /-- Draw numbers at random. The seed, if there is one, determines them. -/
  draw : (seed : Option Nat) → (bound count : Nat) → 2 < bound → m (Draw bound count)

namespace Host

variable {m : Type → Type} [Monad m] [Host m]

def readText (path : String) : ExceptT AccessError m (List Char) := do
  return Text.unifyBreaks (← readFile path)

def isFault (kind : FileErrorKind) : AccessError → Bool
  | .file e => e.kind = kind
  | .nullByte => false
  | .encoding _ => false

/-- Make a directory unless there is one already. -/
def makeDirectoryOnce (p : Path) : ExceptT AccessError m Unit :=
  tryCatch (makeDirectory p.text) fun e => do
    match e with
    | .file f =>
      if f.kind ≠ .notFound && (← isDirectory (m := m) p.text) then return () else throw e
    | _ => throw e

/-- Make a directory and those above it that are missing. -/
def ensureDirectory (p : Path) : ExceptT AccessError m Unit :=
  tryCatch (makeDirectoryOnce p) fun e =>
    if _h : isFault .notFound e = true ∧ p.names ≠ [] then do
      ensureDirectory p.parent
      makeDirectoryOnce p
    else throw e
termination_by p.names.length
decreasing_by
  have := List.length_pos_iff.2 _h.2
  simp only [Path.parent, List.length_dropLast]
  omega

/-- The entries of a folder that are named as problems, in order of their paths. -/
def problemsIn (folder : String) : ExceptT AccessError m (List String) := do
  let names ← listDirectory folder
  let lead := if folder = "" ∨ folder.endsWith "/" then folder else folder ++ "/"
  let chosen := names.filter (fun name => name.endsWith ".cnf")
  return (chosen.map (fun name => lead ++ name)).mergeSort (fun a b => a ≤ b)

/-- The problems that a list of paths stands for; a folder stands for the problems in it. -/
def collectProblems : List String → ExceptT AccessError m (List Path)
  | [] => return []
  | p :: rest => do
    if ← isDirectory (m := m) p then
      let paths ← problemsIn p
      return paths.map Path.ofText ++ (← collectProblems rest)
    else return Path.ofText p :: (← collectProblems rest)

end Host

end FactorSearch
