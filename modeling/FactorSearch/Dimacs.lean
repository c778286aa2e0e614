import FactorSearch.Circuit

/-!
Clauses with comments as text: the comments first, then a header with the
largest variable and the number of clauses, then one clause a line, each ended
by a zero.
-/

namespace FactorSearch

structure Dimacs where
  comments : List String
  clauses : List (List Int)

namespace Dimacs

def variableCount (d : Dimacs) : Nat := Circuit.largestVar d.clauses

def header (d : Dimacs) : String :=
  "p cnf " ++ toString d.variableCount ++ " " ++ toString d.clauses.length

def clauseLine (clause : List Int) : String := " ".intercalate (clause.map toString) ++ " 0"

def lines (d : Dimacs) : List String := d.comments ++ d.header :: d.clauses.map clauseLine

def text (d : Dimacs) : String := String.join (d.lines.map (fun line => line ++ "\n"))

end Dimacs

end FactorSearch
