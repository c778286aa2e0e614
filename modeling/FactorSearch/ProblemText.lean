import FactorSearch.BitLayout
import FactorSearch.Clause
import FactorSearch.Text.Integer

/-!
The text of a problem. Every line that is not blank, a header or a comment is a
clause: signed integers, and a zero at the end. Three comments, one for each
operand, list the variables of its bits; of several that fit, the first counts.
Reading stops at the first malformed line. Clauses in which a variable met its
own negation are noticed, and dropped if nothing is left of them.
-/

namespace FactorSearch

open Text

inductive ProblemFault where
  | unterminated
  | invalidLiteral (token : List Char)
  | malformedList (operand : Operand) (text : List Char)
  | notPositive (operand : Operand)
  | missing (operand : Operand)
deriving DecidableEq

structure ProblemError where
  fault : ProblemFault
  source : Option String
  lineNo : Option Int
  line : Option (List Char)
deriving DecidableEq

/-- Something noticed in a clause line that was read all the same. -/
inductive Notice where
  | dropped (lineNo : Nat) (line : List Char)
  | cancelled (lineNo : Nat) (line : List Char)
deriving DecidableEq

structure Problem where
  clauses : List Clause
  layout : BitLayout

/-- A source without a name is shown as a string. -/
def sourceName : Option String → String
  | some s => if s.isEmpty then "<string>" else s
  | none => "<string>"

namespace ProblemFault

def message : ProblemFault → String
  | .unterminated => "clause line must end with 0"
  | .invalidLiteral token => "invalid literal '" ++ String.ofList token ++ "'"
  | .malformedList operand text =>
    "malformed variable list for " ++ operand.label ++ ": [" ++ String.ofList text ++ "]"
  | .notPositive operand => "variable ids for " ++ operand.label ++ " must be positive"
  | .missing operand => "missing '" ++ operand.label ++ "' annotation"

end ProblemFault

namespace ProblemError

def message (e : ProblemError) : String :=
  let number := match e.lineNo with
    | some n => ":" ++ toString n
    | none => ""
  let shown := match e.line with
    | some line => " (" ++ String.ofList (quoted line) ++ ")"
    | none => ""
  sourceName e.source ++ number ++ ": " ++ e.fault.message ++ shown

end ProblemError

namespace Notice

def message (source : Option String) : Notice → String
  | .dropped n line =>
    sourceName source ++ ":" ++ toString n ++ ": clause cancelled to nothing and was dropped: "
      ++ String.ofList line
  | .cancelled n line =>
    sourceName source ++ ":" ++ toString n ++ ": complementary literals cancelled in clause: "
      ++ String.ofList line

end Notice

namespace ProblemText

def literalOf (token : List Char) : Except ProblemFault Literal :=
  match parseInteger token with
  | .error _ => .error (.invalidLiteral token)
  | .ok n =>
    match Literal.ofInt n with
    | .error _ => .error (.invalidLiteral token)
    | .ok l => .ok l

/-- The literals of a clause line in the order written. -/
def literalsOf (line : List Char) : Except ProblemFault (List Literal) :=
  let tokens := words line
  if tokens.getLast? = some ['0'] then tokens.dropLast.mapM literalOf else .error .unterminated

def parseClause (source : Option String) (lineNo : Option Int) (line : List Char) :
    Except ProblemError Clause :=
  match literalsOf line with
  | .ok ls => .ok (Clause.ofLiterals ls)
  | .error fault => .error ⟨fault, source, lineNo, some line⟩

/-- Only the letters from `A` to `Z` in both cases count. -/
def isLabelChar (c : Char) : Bool := c.isAlpha || c == ' '

def isListChar (c : Char) : Bool := c.isDigit || c == ',' || c == ' '

/-- Letters and spaces, at least one, and then the label. -/
def labelAfterWords (label : List Char) : List Char → Bool
  | [] => false
  | c :: rest => isLabelChar c && (label.isPrefixOf rest || labelAfterWords label rest)

/-- Blanks, at least one, and then words that lead to the label. -/
def labelAfterBlanks (label : List Char) : List Char → Bool
  | [] => false
  | c :: rest => isBlank c && (labelAfterWords label rest || labelAfterBlanks label rest)

/-- What stands in the brackets of a list that fills the rest of a line. -/
def bracketed? (cs : List Char) : Option (List Char) :=
  match cs.dropWhile isBlank with
  | '[' :: rest =>
    let inner := rest.takeWhile isListChar
    match rest.dropWhile isListChar with
    | ']' :: after => if !inner.isEmpty && after.all isBlank then some inner else none
    | _ => none
  | _ => none

/-- The list text of a comment line that annotates the operand. -/
def annotation? (operand : Operand) (line : List Char) : Option (List Char) :=
  let title := line.takeWhile (· ≠ ':')
  match title, line.dropWhile (· ≠ ':') with
  | 'c' :: named, ':' :: rest =>
    if labelAfterBlanks operand.label.toList named then bracketed? rest else none
  | _, _ => none

/-- The variables of a list; all of them positive. -/
def parseList (operand : Operand) (text : List Char) : Except ProblemFault (List Int) :=
  match (fields (· = ',') text).mapM (fun item => parseInteger (strip item)) with
  | .error _ => .error (.malformedList operand text)
  | .ok vars => if vars.all (0 < ·) then .ok vars else .error (.notPositive operand)

/-- What the lines read so far have given, the latest first. -/
structure Draft where
  clauses : List Clause
  annotations : List (Operand × List Int)
  notices : List Notice

namespace Draft

def empty : Draft := ⟨[], [], []⟩

def bits? (d : Draft) (operand : Operand) : Option (List Int) :=
  (d.annotations.find? (fun a => a.1 = operand)).map Prod.snd

end Draft

def annotate (d : Draft) (line : List Char) : List Operand → Except ProblemFault Draft
  | [] => .ok d
  | operand :: rest =>
    if (d.bits? operand).isSome then annotate d line rest
    else
      match annotation? operand line with
      | none => annotate d line rest
      | some text =>
        match parseList operand text with
        | .error fault => .error fault
        | .ok vars => annotate { d with annotations := (operand, vars) :: d.annotations } line rest

def addClause (d : Draft) (lineNo : Nat) (line : List Char) (ls : List Literal) : Draft :=
  let c := Clause.ofLiterals ls
  if c.isEmpty then { d with notices := .dropped lineNo line :: d.notices }
  else
    let notices :=
      if c.size < (ls.map Literal.var).eraseDups.length then .cancelled lineNo line :: d.notices
      else d.notices
    { d with clauses := c :: d.clauses, notices := notices }

/-- Read one stripped line into a draft. -/
def readLine (source : Option String) (lineNo : Nat) (line : List Char) (d : Draft) :
    Except ProblemError Draft :=
  match line with
  | [] => .ok d
  | 'p' :: _ => .ok d
  | 'c' :: _ =>
    match annotate d line Operand.all with
    | .ok d => .ok d
    | .error fault => .error ⟨fault, source, none, none⟩
  | _ =>
    match literalsOf line with
    | .ok ls => .ok (addClause d lineNo line ls)
    | .error fault => .error ⟨fault, source, some lineNo, some line⟩

/-- Read lines until one is malformed; what was read before it remains. -/
def readLines (source : Option String) (lineNo : Nat) (d : Draft) :
    List (List Char) → Draft × Option ProblemError
  | [] => (d, none)
  | line :: rest =>
    match readLine source lineNo (strip line) d with
    | .ok d => readLines source (lineNo + 1) d rest
    | .error e => (d, some e)

def finish (source : Option String) (d : Draft) : Except ProblemError Problem :=
  match d.bits? .output, d.bits? .first, d.bits? .second with
  | some output, some first, some second => .ok ⟨d.clauses.reverse, ⟨output, first, second⟩⟩
  | none, _, _ => .error ⟨.missing .output, source, none, none⟩
  | _, none, _ => .error ⟨.missing .first, source, none, none⟩
  | _, _, none => .error ⟨.missing .second, source, none, none⟩

/-- What was noticed on the way, and the problem or what is wrong with it. -/
structure Reading where
  notices : List Notice
  result : Except ProblemError Problem

def parse (source : Option String) (text : List Char) : Reading :=
  let (d, error?) := readLines source 1 Draft.empty (lines text)
  match error? with
  | some e => ⟨d.notices.reverse, .error e⟩
  | none => ⟨d.notices.reverse, finish source d⟩

end ProblemText

end FactorSearch
