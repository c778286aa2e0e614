import FactorSearch.Text.Quoted
import FactorSearch.Text.Utf8

/-!
What can go wrong with a file: the system refuses the path, the path holds a
character that no path may hold, or the bytes are no text.
-/

namespace FactorSearch

inductive FileErrorKind where
  | notFound
  | alreadyExists
  | notDirectory
  | isDirectory
  | nameTooLong
  | other (number : Nat) (description : String)
deriving DecidableEq

structure FileError where
  kind : FileErrorKind
  path : String
deriving DecidableEq

inductive AccessError where
  | file (e : FileError)
  | nullByte
  | encoding (e : Text.Utf8Error)
deriving DecidableEq

namespace FileErrorKind

def number : FileErrorKind → Nat
  | .notFound => 2
  | .alreadyExists => 17
  | .notDirectory => 20
  | .isDirectory => 21
  | .nameTooLong => 36
  | .other number _ => number

def description : FileErrorKind → String
  | .notFound => "No such file or directory"
  | .alreadyExists => "File exists"
  | .notDirectory => "Not a directory"
  | .isDirectory => "Is a directory"
  | .nameTooLong => "File name too long"
  | .other _ description => description

/-- The kind of error that the system numbers and describes so. -/
def ofNumber (number : Nat) (description : String) : FileErrorKind :=
  match [notFound, alreadyExists, notDirectory, isDirectory, nameTooLong].find?
    (fun kind => kind.number = number) with
  | some kind => kind
  | none => .other number description

end FileErrorKind

namespace FileError

def message (e : FileError) : String :=
  "[Errno " ++ toString e.kind.number ++ "] " ++ e.kind.description ++ ": "
    ++ String.ofList (Text.quoted e.path.toList)

end FileError

namespace AccessError

def message : AccessError → String
  | .file e => e.message
  | .nullByte => "embedded null byte"
  | .encoding e => e.message

end AccessError

end FactorSearch
