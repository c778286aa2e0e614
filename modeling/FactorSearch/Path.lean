import FactorSearch.Text.Blank
import FactorSearch.Text.Quoted

/-!
Paths in normal form: a root of no, one or two slashes, and names without empty
ones or single dots. Double dots stay. A solution lies beside its problem, with
the last suffix of the name replaced.
-/

namespace FactorSearch

structure Path where
  /-- The slashes that the path begins with. -/
  root : String
  names : List String
deriving DecidableEq

structure EmptyName where
  path : Path

namespace Path

def splitNames (s : String) : List String :=
  ((Text.fields (· = '/') s.toList).map String.ofList).filter (fun n => n != "" && n != ".")

/-- Exactly two slashes at the front are kept; more count as one. -/
def rootOf (s : String) : String :=
  match s.toList.takeWhile (· = '/') with
  | [] => ""
  | ['/', '/'] => "//"
  | _ => "/"

def ofText (s : String) : Path := ⟨rootOf s, splitNames s⟩

def text (p : Path) : String :=
  if p.root = "" && p.names.isEmpty then "." else p.root ++ "/".intercalate p.names

def join (p : Path) (name : String) : Path := ⟨p.root, p.names ++ [name]⟩

def name? (p : Path) : Option String := p.names.getLast?

def parent (p : Path) : Path := ⟨p.root, p.names.dropLast⟩

/-- The name up to its last dot, unless the dot comes first or last. -/
def stem (name : String) : String :=
  let back := name.toList.reverse
  let suffix := back.takeWhile (· ≠ '.')
  match back.dropWhile (· ≠ '.') with
  | '.' :: front =>
    if suffix.isEmpty || front.isEmpty then name else String.ofList front.reverse
  | _ => name

def withSuffix (p : Path) (suffix : String) : Except EmptyName Path :=
  match p.name? with
  | some name => .ok (p.parent.join (stem name ++ suffix))
  | none => .error ⟨p⟩

/-- Where the solution of a problem is kept. -/
def solution (p : Path) : Except EmptyName Path := p.withSuffix ".sol"

end Path

namespace EmptyName

def message (e : EmptyName) : String :=
  "PosixPath(" ++ String.ofList (Text.quoted e.path.text.toList) ++ ") has an empty name"

end EmptyName

end FactorSearch
