import FactorSearch.Batch
import FactorSearch.Generation

/-!
The program: one command solves a batch of problems, the other one writes
multiplication problems. Here the host is the system itself. Work and memory are
read from the accounts that the system keeps of a process, where it keeps them.
-/

namespace FactorSearch

/-- The number and the description that the system gives an error. -/
def numbered : IO.Error → UInt32 × String
  | .alreadyExists _ n s => (n, s)
  | .otherError n s => (n, s)
  | .resourceBusy n s => (n, s)
  | .resourceVanished n s => (n, s)
  | .unsupportedOperation n s => (n, s)
  | .hardwareFault n s => (n, s)
  | .unsatisfiedConstraints n s => (n, s)
  | .illegalOperation n s => (n, s)
  | .protocolError n s => (n, s)
  | .timeExpired n s => (n, s)
  | .interrupted _ n s => (n, s)
  | .noFileOrDirectory _ n s => (n, s)
  | .invalidArgument _ n s => (n, s)
  | .permissionDenied _ n s => (n, s)
  | .resourceExhausted _ n s => (n, s)
  | .inappropriateType _ n s => (n, s)
  | .noSuchThing _ n s => (n, s)
  | .unexpectedEof => (0, "end of file")
  | .userError s => (0, s)

/-- The kind of an error. Some numbers come with their sign turned. -/
def kindOf (e : IO.Error) : FileErrorKind :=
  FileErrorKind.ofNumber (numbered e).1.toInt32.toInt.natAbs (numbered e).2

def attempt {α : Type} (path : String) (action : IO α) : ExceptT AccessError IO α := do
  match ← action.toBaseIO with
  | .ok a => return a
  | .error e => throw (.file ⟨kindOf e, path⟩)

/-- A path of the system. -/
def entry (path : String) : IO.FS.DirEntry := ⟨path, ""⟩

/-- The words after the last closing bracket in a file that the system writes. -/
def account (path : String) : IO (List String) := do
  match ← (IO.FS.readFile path).toBaseIO with
  | .ok text =>
    let last := ((text.splitOn ")").getLastD "").toList
    return (Text.words last).map String.ofList
  | .error _ => return []

def entryOf (words : List String) (index : Nat) : Option Nat := words[index]?.bind String.toNat?

def nanosecondsPerTick : Nat := 10000000

def bytesPerPage : Nat := 4096

/-- The ticks that this process has worked for itself and for the system. -/
def workTicks : IO (Option Nat) := do
  let words ← account "/proc/self/stat"
  return (entryOf words 11).bind fun own => (entryOf words 12).map fun system => own + system

/-- Numbers drawn one after another. -/
def drawFrom {bound : Nat} (h : 2 < bound) (g : StdGen) : (count : Nat) → Draw bound count
  | 0 => .none
  | n + 1 =>
    let (k, g) := randNat g 0 bound
    (drawFrom h g n).add h k

instance : Host IO where
  isDirectory path := (entry path).root.isDir
  present path := attempt path (entry path).root.pathExists
  listDirectory path := do
    let entries ← attempt path (entry path).root.readDir
    return entries.toList.map IO.FS.DirEntry.fileName
  readFile path := do
    let bytes ← attempt path (IO.FS.readBinFile path)
    match Text.decodeUtf8 bytes.toList with
    | .ok cs => return cs
    | .error e => throw (.encoding e)
  writeFile path text := attempt path (IO.FS.writeFile path text)
  makeDirectory path := attempt path (IO.FS.createDir path)
  print text := IO.print text
  printError text := IO.eprint text
  clock := return (← IO.monoNanosNow) / 1000
  workTime := return (← workTicks).map (· * nanosecondsPerTick)
  memory := return (entryOf (← account "/proc/self/statm") 1).map (· * bytesPerPage)
  showProgress name percent := IO.eprint ("\r" ++ name ++ ": " ++ toString percent ++ "%")
  room := Capacity.usualRoom
  draw seed _ count h := return drawFrom h (mkStdGen (seed.getD 0)) count

/-- Parse the arguments of a command and run it; the result is the exit code. -/
def runCommand (name : String) (g : Grammar) (args : List String)
    (command : CommandLine.Parsed → ExceptT Fault IO Bool) : IO UInt32 := do
  match CommandLine.parse g args with
  | .error .help =>
    IO.println (name ++ " " ++ " ".intercalate (g.switches.map Switch.display ++ g.free.toList))
    return 0
  | .error e =>
    IO.eprintln (name ++ ": error: " ++ e.message)
    return 2
  | .ok p =>
    match ← (command p).run with
    | .ok good => return if good then 0 else 1
    | .error fault =>
      IO.eprintln (name ++ ": " ++ fault.message)
      return 1

end FactorSearch

open FactorSearch

def main : List String → IO UInt32
  | "solve" :: args =>
    runCommand "solve" BatchRequest.grammar args fun p => do
      let level := (← IO.getEnv "LOGLEVEL").getD "WARNING"
      Batch.run level (BatchRequest.ofParsed p)
  | "generate" :: args =>
    runCommand "generate" GenerationRequest.grammar args fun p => do
      Generation.run (GenerationRequest.ofParsed p)
      return true
  | _ => do
    IO.eprintln "expected a command: solve or generate"
    return 2
