import FactorSearch.Host
import FactorSearch.Table

/-!
A host made of values: a tree of files, a working directory and the text printed
so far. No time passes in it, it measures nothing, and the numbers that it draws are
the least ones. A place in the tree is the list of names from the entry up to the root.
-/

namespace FactorSearch

inductive Content where
  | text (t : String)
  | undecodable (e : Text.Utf8Error)
deriving DecidableEq

inductive Entry where
  | directory
  | file (c : Content)
deriving DecidableEq

abbrev Place := List String

structure World where
  entries : Table Place Entry
  workingDirectory : Place
  output : String
  errors : String

/-- Where a path leads: to an entry, or to a free name in a directory. -/
inductive Located where
  | found (place : Place) (e : Entry)
  | free (place : Place)

namespace World

def entry? (w : World) : Place → Option Entry
  | [] => some .directory
  | place => w.entries.get? place

def longestName : Nat := 255

def longestPath : Nat := 4095

/-- Follow names from a place. Every place passed through must be a directory. -/
def walk (w : World) (place : Place) : List String → Except FileErrorKind Located
  | [] =>
    match entry? w place with
    | some e => .ok (.found place e)
    | none => .error .notFound
  | name :: rest =>
    match entry? w place with
    | some .directory =>
      if name = "" ∨ name = "." then walk w place rest
      else if name = ".." then walk w place.tail rest
      else if longestName < name.utf8ByteSize then .error .nameTooLong
      else
        match entry? w (name :: place) with
        | some _ => walk w (name :: place) rest
        | none => if rest.isEmpty then .ok (.free (name :: place)) else .error .notFound
    | _ => .error .notDirectory

def namesOf (path : String) : List String := (Text.fields (· = '/') path.toList).map String.ofList

def locateNames (w : World) (path : String) (names : List String) : Except FileErrorKind Located :=
  if path = "" then .error .notFound
  else if longestPath < path.utf8ByteSize then .error .nameTooLong
  else w.walk (if path.startsWith "/" then [] else w.workingDirectory) names

def locate (w : World) (path : String) : Except FileErrorKind Located :=
  w.locateNames path (namesOf path)

def hasNull (path : String) : Bool := path.toList.contains (Char.ofNat 0)

def fileError {α : Type} (kind : FileErrorKind) (path : String) : Except AccessError α :=
  .error (.file ⟨kind, path⟩)

def isDirectory (w : World) (path : String) : Bool :=
  match hasNull path, w.locate path with
  | false, .ok (.found _ .directory) => true
  | _, _ => false

def present (w : World) (path : String) : Except AccessError Bool :=
  if hasNull path then .ok false
  else
    match w.locate path with
    | .ok (.found _ _) => .ok true
    | .ok (.free _) => .ok false
    | .error .nameTooLong => fileError .nameTooLong path
    | .error _ => .ok false

def list (w : World) (path : String) : Except AccessError (List String) :=
  if hasNull path then .error .nullByte
  else
    match w.locate path with
    | .ok (.found place .directory) =>
      .ok (w.entries.keys.filterMap fun key =>
        match key with
        | name :: parent => if parent = place then some name else none
        | [] => none)
    | .ok (.found _ _) => fileError .notDirectory path
    | .ok (.free _) => fileError .notFound path
    | .error kind => fileError kind path

def read (w : World) (path : String) : Except AccessError (List Char) :=
  if hasNull path then .error .nullByte
  else
    match w.locate path with
    | .ok (.found _ (.file (.text t))) => .ok t.toList
    | .ok (.found _ (.file (.undecodable e))) => .error (.encoding e)
    | .ok (.found _ .directory) => fileError .isDirectory path
    | .ok (.free _) => fileError .notFound path
    | .error kind => fileError kind path

/-- Write a file. A path that ends in a slash names a directory. -/
def write (w : World) (path text : String) : Except AccessError World :=
  if hasNull path then .error .nullByte
  else
    let names := ((namesOf path).reverse.dropWhile (· = "")).reverse
    match w.locateNames path names with
    | .error kind => fileError kind path
    | .ok (.found _ .directory) => fileError .isDirectory path
    | .ok (.found place _) =>
      if path.endsWith "/" then fileError .isDirectory path
      else .ok { w with entries := w.entries.insert place (.file (.text text)) }
    | .ok (.free place) =>
      if path.endsWith "/" then fileError .isDirectory path
      else .ok { w with entries := w.entries.insert place (.file (.text text)) }

def makeDirectory (w : World) (path : String) : Except AccessError World :=
  if hasNull path then .error .nullByte
  else
    match w.locate path with
    | .ok (.free place) => .ok { w with entries := w.entries.insert place .directory }
    | .ok (.found _ _) => fileError .alreadyExists path
    | .error kind => fileError kind path

/-- Look at the world; looking may fail. -/
def look {α : Type} (f : World → Except AccessError α) : ExceptT AccessError (StateM World) α :=
  ExceptT.mk do return f (← get)

/-- Change the world, unless the change fails. -/
def change (f : World → Except AccessError World) : ExceptT AccessError (StateM World) Unit := do
  set (← look f)

/-- The least numbers that can be drawn. -/
def least {bound : Nat} (h : 2 < bound) : (count : Nat) → Draw bound count
  | 0 => .none
  | n + 1 => (least h n).add h 0

instance : Host (StateM World) where
  isDirectory path := return (← get).isDirectory path
  present path := look (fun w => w.present path)
  listDirectory path := look (fun w => w.list path)
  readFile path := look (fun w => w.read path)
  writeFile path text := change (fun w => w.write path text)
  makeDirectory path := change (fun w => w.makeDirectory path)
  print text := modify (fun w => { w with output := w.output ++ text })
  printError text := modify (fun w => { w with errors := w.errors ++ text })
  clock := return 0
  workTime := return none
  memory := return none
  showProgress _ _ := return ()
  room := Capacity.usualRoom
  draw _ _ count h := return least h count

/-- Place a directory and those above it. -/
def addDirectory (w : World) : Place → World
  | [] => w
  | name :: parent =>
    { addDirectory w parent with
      entries := (addDirectory w parent).entries.insertIfNew (name :: parent) .directory }

def addFile (w : World) (place : Place) (c : Content) : World :=
  let w := w.addDirectory place.tail
  { w with entries := w.entries.insert place (.file c) }

def empty : World := ⟨Table.empty, [], "", ""⟩

end World

end FactorSearch
