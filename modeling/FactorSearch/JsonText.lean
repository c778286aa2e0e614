import FactorSearch.DecimalText
import FactorSearch.Text.Quoted

/-!
Structured values and their indented text: four spaces a level, members in the
order given, and characters beyond the first 127 as escaped 16-bit units. A
number that was not measured is shown as a star.
-/

namespace FactorSearch

inductive JsonValue where
  | null
  | bool (b : Bool)
  | int (n : Int)
  | real (x : Binary64)
  | unmeasured
  | str (s : String)
  | arr (items : List JsonValue)
  | obj (members : List (String × JsonValue))

namespace JsonValue

def escapeUnit (n : Nat) : List Char := '\\' :: 'u' :: Text.hex 4 n

def escapeChar (c : Char) : List Char :=
  if c = '"' then ['\\', '"']
  else if c = '\\' then ['\\', '\\']
  else if c = '\n' then ['\\', 'n']
  else if c = '\r' then ['\\', 'r']
  else if c = '\t' then ['\\', 't']
  else
    let n := c.toNat
    if n = 8 then ['\\', 'b']
    else if n = 12 then ['\\', 'f']
    else if 32 ≤ n && n ≤ 126 then [c]
    else if n < 0x10000 then escapeUnit n
    else
      escapeUnit (0xd800 + (n - 0x10000) / 0x400) ++ escapeUnit (0xdc00 + (n - 0x10000) % 0x400)

def stringText (s : String) : String :=
  "\"" ++ String.ofList (s.toList.flatMap escapeChar) ++ "\""

def newline (level : Nat) : String := "\n" ++ String.ofList (List.replicate (4 * level) ' ')

mutual

def render (level : Nat) : JsonValue → String
  | .null => "null"
  | .bool b => if b then "true" else "false"
  | .int n => toString n
  | .real x => DecimalText.shortest x
  | .unmeasured => "*"
  | .str s => stringText s
  | .arr [] => "[]"
  | .arr (v :: rest) =>
    "[" ++ newline (level + 1) ++ render (level + 1) v ++ renderItems (level + 1) rest
      ++ newline level ++ "]"
  | .obj [] => "\x7b\x7d"
  | .obj ((k, v) :: rest) =>
    "\x7b" ++ newline (level + 1) ++ stringText k ++ ": " ++ render (level + 1) v
      ++ renderMembers (level + 1) rest ++ newline level ++ "\x7d"

def renderItems (level : Nat) : List JsonValue → String
  | [] => ""
  | v :: rest => "," ++ newline level ++ render level v ++ renderItems level rest

def renderMembers (level : Nat) : List (String × JsonValue) → String
  | [] => ""
  | (k, v) :: rest =>
    "," ++ newline level ++ stringText k ++ ": " ++ render level v ++ renderMembers level rest

end

def text (v : JsonValue) : String := v.render 0

end JsonValue

end FactorSearch
