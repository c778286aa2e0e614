/-!
Blank characters and line breaks. Text is stripped of blanks, cut into words at
blanks and into lines at line breaks; a carriage return and a line feed after it
are one break, and a break at the end opens no further line.
-/

namespace FactorSearch.Text

/-- The code points of blanks outside the first 128 characters. -/
def wideBlanks : List Nat :=
  [0x85, 0xa0, 0x1680, 0x2000, 0x2001, 0x2002, 0x2003, 0x2004, 0x2005, 0x2006, 0x2007, 0x2008,
    0x2009, 0x200a, 0x2028, 0x2029, 0x202f, 0x205f, 0x3000]

def isBlank (c : Char) : Bool :=
  let n := c.toNat
  (9 ≤ n && n ≤ 13) || (28 ≤ n && n ≤ 32) || wideBlanks.contains n

def isLineBreak (c : Char) : Bool :=
  let n := c.toNat
  (10 ≤ n && n ≤ 13) || (28 ≤ n && n ≤ 30) || n == 0x85 || n == 0x2028 || n == 0x2029

def stripBy (drop : Char → Bool) (cs : List Char) : List Char :=
  ((cs.dropWhile drop).reverse.dropWhile drop).reverse

def strip (cs : List Char) : List Char := stripBy isBlank cs

/-- Cut at every character that separates; the characters of the field begun
so far stand in reverse. -/
def fieldsFrom (separates : Char → Bool) (field : List Char) : List Char → List (List Char)
  | [] => [field.reverse]
  | c :: rest =>
    if separates c then field.reverse :: fieldsFrom separates [] rest
    else fieldsFrom separates (c :: field) rest

/-- The pieces between separators, empty ones included. -/
def fields (separates : Char → Bool) (cs : List Char) : List (List Char) :=
  fieldsFrom separates [] cs

/-- The maximal runs of characters that are not blank. -/
def words (cs : List Char) : List (List Char) :=
  (fields isBlank cs).filter (fun w => !w.isEmpty)

/-- The lines of a text whose first line has begun with the given characters, in reverse. -/
def linesFrom (line : List Char) : List Char → List (List Char)
  | [] => if line.isEmpty then [] else [line.reverse]
  | '\r' :: '\n' :: rest => line.reverse :: linesFrom [] rest
  | c :: rest =>
    if isLineBreak c then line.reverse :: linesFrom [] rest else linesFrom (c :: line) rest

def lines (cs : List Char) : List (List Char) := linesFrom [] cs

def unifyBreaksFrom (done : List Char) : List Char → List Char
  | [] => done.reverse
  | '\r' :: '\n' :: rest => unifyBreaksFrom ('\n' :: done) rest
  | c :: rest => unifyBreaksFrom ((if c = '\r' then '\n' else c) :: done) rest

/-- Carriage returns, with or without a line feed, become line feeds. -/
def unifyBreaks (cs : List Char) : List Char := unifyBreaksFrom [] cs

end FactorSearch.Text
