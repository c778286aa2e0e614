import FactorSearch.Text.Decimal

/-!
Command lines. A grammar lists the switches of a command, the name of its free
arguments if it takes any, and the switches of which exactly one must be given.
A long switch may be cut short as long as only one fits, and a value may follow
after an equals sign; short switches without values may be joined to one word.
After a double dash nothing is a switch, and a double dash in the place of a
value leaves the switch without one. All free arguments stand together. The
first thing that is wrong decides the error.
-/

namespace FactorSearch

open Text

inductive Arity where
  | none
  | one
  | many
deriving DecidableEq

inductive ValueKind where
  | text
  | integer
  | decimal
  | choice (values : List String)
deriving DecidableEq

/-- What a switch sets. It is bare if a double dash took the place of its value. -/
inductive Setting (α : Type) where
  | given (a : α)
  | bare

structure Switch where
  names : List String
  arity : Arity
  kind : ValueKind
  required : Bool
deriving DecidableEq

structure Grammar where
  switches : List Switch
  free : Option String
  exclusive : List Switch

inductive UsageError where
  | help
  | ambiguous (written : String) (matching : List String)
  | expectedOne (switch : Switch)
  | expectedSome (switch : Switch)
  | ignoredValue (switch : Switch) (value : String)
  | invalidValue (switch : Switch) (kind : String) (value : String)
  | invalidChoice (switch : Switch) (value : String) (choices : List String)
  | notAllowedWith (switch : Switch) (other : Switch)
  | required (names : List String)
  | oneRequired (names : List String)
  | unrecognized (args : List String)
deriving DecidableEq

namespace Switch

def display (s : Switch) : String := "/".intercalate s.names

/-- The switch that every command has. -/
def help : Switch := ⟨["-h", "--help"], .none, .text, false⟩

def flag (name : String) : Switch := ⟨[name], .none, .text, false⟩

end Switch

namespace UsageError

def shown (s : String) : String := String.ofList (quoted s.toList)

def message : UsageError → String
  | .help => ""
  | .ambiguous written matching =>
    "ambiguous option: " ++ written ++ " could match " ++ ", ".intercalate matching
  | .expectedOne s => "argument " ++ s.display ++ ": expected one argument"
  | .expectedSome s => "argument " ++ s.display ++ ": expected at least one argument"
  | .ignoredValue s value =>
    "argument " ++ s.display ++ ": ignored explicit argument " ++ shown value
  | .invalidValue s kind value =>
    "argument " ++ s.display ++ ": invalid " ++ kind ++ " value: " ++ shown value
  | .invalidChoice s value choices =>
    "argument " ++ s.display ++ ": invalid choice: " ++ shown value ++ " (choose from "
      ++ ", ".intercalate (choices.map shown) ++ ")"
  | .notAllowedWith s other =>
    "argument " ++ s.display ++ ": not allowed with argument " ++ other.display
  | .required names => "the following arguments are required: " ++ ", ".intercalate names
  | .oneRequired names => "one of the arguments " ++ " ".intercalate names ++ " is required"
  | .unrecognized args => "unrecognized arguments: " ++ " ".intercalate args

end UsageError

namespace CommandLine

/-- What an argument is before any value is taken. -/
inductive Token where
  | plain
  | dashes
  | unknown
  | switch (s : Switch) (written : String) (value : Option String)

def Token.isSwitch : Token → Bool
  | .unknown => true
  | .switch .. => true
  | _ => false

def startsWith (s lead : String) : Bool := lead.toList.isPrefixOf s.toList

/-- The part before the first equals sign, and the part after it if there is one. -/
def splitEquals (s : String) : String × Option String :=
  match s.toList.dropWhile (· ≠ '=') with
  | _ :: value => (String.ofList (s.toList.takeWhile (· ≠ '=')), some (String.ofList value))
  | [] => (s, none)

/-- A minus sign and digits, possibly with a point before the last of them. -/
def isNegativeNumber (s : String) : Bool :=
  let isDigit (c : Char) : Bool := (digit? c).isSome
  match s.toList with
  | '-' :: body =>
    let body := if body.getLast? = some '\n' then body.dropLast else body
    let rest := body.dropWhile isDigit
    match rest with
    | [] => !body.isEmpty
    | '.' :: places => !places.isEmpty && places.all isDigit
    | _ => false
  | _ => false

def namesOf (g : Grammar) : List (Switch × String) :=
  g.switches.flatMap (fun s => s.names.map (fun name => (s, name)))

/-- The switches that a written argument may stand for. -/
def candidates (g : Grammar) (arg : String) : List (Switch × String × Option String) :=
  if startsWith arg "--" then
    let (lead, value) := splitEquals arg
    (namesOf g).filterMap fun (s, name) =>
      if startsWith name lead then some (s, name, value) else none
  else
    let short := String.ofList (arg.toList.take 2)
    let tail := String.ofList (arg.toList.drop 2)
    (namesOf g).filterMap fun (s, name) =>
      if name = short then some (s, name, some tail)
      else if startsWith name arg then some (s, name, none)
      else none

def classify (g : Grammar) (arg : String) : Except UsageError Token :=
  if !startsWith arg "-" then .ok .plain
  else
    match (namesOf g).find? (fun (_, name) => name == arg) with
    | some (s, name) => .ok (.switch s name none)
    | none =>
      if arg.length = 1 then .ok .plain
      else
        let (lead, value) := splitEquals arg
        match value.bind fun v =>
            ((namesOf g).find? (fun (_, name) => name == lead)).map (fun e => (e, v)) with
        | some ((s, name), v) => .ok (.switch s name (some v))
        | none =>
          match candidates g arg with
          | [(s, name, v)] => .ok (.switch s name v)
          | [] =>
            if isNegativeNumber arg || arg.toList.contains ' ' then .ok .plain else .ok .unknown
          | several => .error (.ambiguous arg (several.map (fun c => c.2.1)))

def tokens (g : Grammar) : List String → Except UsageError (List (Token × String))
  | [] => .ok []
  | "--" :: rest => .ok ((.dashes, "--") :: rest.map (fun arg => (.plain, arg)))
  | arg :: rest => do
    let t ← classify g arg
    let ts ← tokens g rest
    return (t, arg) :: ts

def checkValue (s : Switch) (value : String) : Except UsageError Unit :=
  match s.kind with
  | .text => .ok ()
  | .integer =>
    match parseInteger value.toList with
    | .ok _ => .ok ()
    | .error _ => .error (.invalidValue s "int" value)
  | .decimal =>
    match parseDecimal? value.toList with
    | some _ => .ok ()
    | none => .error (.invalidValue s "float" value)
  | .choice values =>
    if values.contains value then .ok () else .error (.invalidChoice s value values)

/-- The switches given so far with their values, the free arguments once they
have been found, and what fits nowhere. -/
structure Parsed where
  given : List (Switch × List String)
  free : Option (List String)
  extras : List String

def Parsed.last? (p : Parsed) (s : Switch) : Option (List String) :=
  (p.given.reverse.find? (fun g => g.1 = s)).map Prod.snd

def Parsed.has (p : Parsed) (s : Switch) : Bool := (p.last? s).isSome

/-- The first double dash is no argument. -/
def dropDashes (args : List String) : List String := args.erase "--"

def take (g : Grammar) (p : Parsed) (s : Switch) (values : List String) :
    Except UsageError Parsed := do
  let values := dropDashes values
  let _ ← values.mapM (checkValue s)
  if g.exclusive.contains s then
    match g.exclusive.find? (fun other => other ≠ s && p.has other) with
    | some other => throw (.notAllowedWith s other)
    | none => pure ()
  if s = Switch.help then throw .help
  return { p with given := p.given ++ [(s, values)] }

def takeAll (g : Grammar) (p : Parsed) (taken : List (Switch × List String)) :
    Except UsageError Parsed :=
  taken.foldlM (fun p t => take g p t.1 t.2) p

/-- Switches of one word: those that are complete, and the last one with the rest
of the word, if the rest is its value. -/
structure Joined where
  complete : List Switch
  last : Switch
  value : Option String

/-- The switches for the letters that follow a switch without value. -/
def joined (g : Grammar) (s : Switch) : List Char → Except UsageError Joined
  | [] => .ok ⟨[], s, none⟩
  | c :: rest =>
    match (namesOf g).find? (fun (_, name) => name == String.ofList ['-', c]) with
    | none => .error (.ignoredValue s (String.ofList (c :: rest)))
    | some (next, _) =>
      if next.arity = .none then
        (fun j => { j with complete := s :: j.complete }) <$> joined g next rest
      else .ok ⟨[s], next, if rest.isEmpty then none else some (String.ofList rest)⟩

/-- The values of a switch from the arguments after it, and what is left of these. -/
def followingValues (s : Switch) (rest : List (Token × String)) :
    Except UsageError (List String × List (Token × String)) :=
  let isPlain (t : Token × String) : Bool := match t.1 with
    | .plain => true
    | _ => false
  match s.arity with
  | .none => .ok ([], rest)
  | .one =>
    match rest with
    | (.plain, value) :: rest => .ok ([value], rest)
    | _ => .error (.expectedOne s)
  | .many =>
    let values := rest.takeWhile isPlain
    if values.isEmpty then .error (.expectedSome s)
    else .ok (values.map Prod.snd, rest.dropWhile isPlain)

/-- The switches of one argument with their values, and the arguments left. -/
def matchSwitch (g : Grammar) (s : Switch) (written : String) (value : Option String)
    (rest : List (Token × String)) :
    Except UsageError (List (Switch × List String) × List (Token × String)) := do
  match value with
  | none =>
    let (values, rest) ← followingValues s rest
    return ([(s, values)], rest)
  | some value =>
    if s.arity ≠ .none then return ([(s, [value])], rest)
    else if startsWith written "--" || value = "" then throw (.ignoredValue s value)
    else
      let j ← joined g s value.toList
      let complete := j.complete.map (fun t => (t, []))
      match j.value with
      | some v => return (complete ++ [(j.last, [v])], rest)
      | none =>
        let (values, rest) ← followingValues j.last rest
        return (complete ++ [(j.last, values)], rest)

/-- Arguments between switches: the free arguments, unless these have been found. -/
def takeFree (g : Grammar) (p : Parsed) (args : List (Token × String)) : Parsed :=
  let hasPlain := args.any fun t => match t.1 with
    | .plain => true
    | _ => false
  let written := args.map Prod.snd
  if g.free.isSome && p.free.isNone && hasPlain then { p with free := some (dropDashes written) }
  else { p with extras := p.extras ++ written }

/-- Consume the arguments from left to right; each round drops one at least. -/
def consume (g : Grammar) : Nat → Parsed → List (Token × String) → Except UsageError Parsed
  | 0, p, _ => .ok p
  | fuel + 1, p, args =>
    let before := args.takeWhile (fun t => !t.1.isSwitch)
    let p := if before.isEmpty then p else takeFree g p before
    match args.dropWhile (fun t => !t.1.isSwitch) with
    | [] => .ok p
    | (.switch s written value, _) :: rest =>
      match matchSwitch g s written value rest with
      | .ok (taken, rest) =>
        match takeAll g p taken with
        | .ok p => consume g fuel p rest
        | .error e => .error e
      | .error e => .error e
    | (_, written) :: rest => consume g fuel { p with extras := p.extras ++ [written] } rest

def missing (g : Grammar) (p : Parsed) : List String :=
  (if p.free.isNone then g.free.toList else [])
    ++ (g.switches.filter (fun s => s.required && !p.has s)).map Switch.display

def parse (g : Grammar) (args : List String) : Except UsageError Parsed := do
  let ts ← tokens g args
  let p ← consume g (args.length + 1) ⟨[], none, []⟩ ts
  let names := missing g p
  if !names.isEmpty then throw (.required names)
  if !g.exclusive.isEmpty && !g.exclusive.any p.has then
    throw (.oneRequired (g.exclusive.map Switch.display))
  if !p.extras.isEmpty then throw (.unrecognized p.extras)
  return p

/-- The integer that was checked when its switch was taken. -/
def integerOf (value : String) : Int :=
  match parseInteger value.toList with
  | .ok n => n
  | .error _ => 0

/-- What a switch sets, or what holds without it. -/
def Parsed.setting {α : Type} (p : Parsed) (s : Switch) (standard : α) (read : String → α) :
    Setting α :=
  match p.last? s with
  | none => .given standard
  | some [] => .bare
  | some (value :: _) => .given (read value)

end CommandLine

end FactorSearch
