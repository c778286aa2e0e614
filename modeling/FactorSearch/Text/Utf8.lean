import FactorSearch.Text.Quoted

/-!
Decoding of UTF-8. The error names the first ill-formed sequence: the byte it
starts at, how many bytes belong to it, and what is wrong with it.
-/

namespace FactorSearch.Text

inductive Utf8Fault where
  | invalidStart
  | invalidContinuation
  | unexpectedEnd
deriving DecidableEq

structure Utf8Error where
  first : UInt8
  position : Nat
  length : Nat
  fault : Utf8Fault
deriving DecidableEq

namespace Utf8Error

def reason : Utf8Fault → String
  | .invalidStart => "invalid start byte"
  | .invalidContinuation => "invalid continuation byte"
  | .unexpectedEnd => "unexpected end of data"

def message (e : Utf8Error) : String :=
  "'utf-8' codec can't decode " ++
    (if e.length = 1 then
      "byte 0x" ++ String.ofList (hex 2 e.first.toNat) ++ " in position " ++ toString e.position
    else
      "bytes in position " ++ toString e.position ++ "-" ++ toString (e.position + e.length - 1))
    ++ ": " ++ reason e.fault

end Utf8Error

/-- What a lead byte demands: its own bits, the number of bytes that follow, and
the range of the first of them. -/
structure Lead where
  bits : Nat
  following : Nat
  low : Nat
  high : Nat

def lead? (b : Nat) : Option Lead :=
  if b < 0x80 then some ⟨b, 0, 0, 0⟩
  else if b < 0xc2 then none
  else if b < 0xe0 then some ⟨b - 0xc0, 1, 0x80, 0xbf⟩
  else if b < 0xf0 then
    some ⟨b - 0xe0, 2, if b = 0xe0 then 0xa0 else 0x80, if b = 0xed then 0x9f else 0xbf⟩
  else if b < 0xf5 then
    some ⟨b - 0xf0, 3, if b = 0xf0 then 0x90 else 0x80, if b = 0xf4 then 0x8f else 0xbf⟩
  else none

/-- Read the continuation bytes of a character: its code point, or the number of
bytes read before the fault. -/
def continuation (value read following low high : Nat) :
    List UInt8 → Except (Nat × Utf8Fault) Nat
  | bytes =>
    match following with
    | 0 => .ok value
    | following + 1 =>
      match bytes with
      | [] => .error (read, .unexpectedEnd)
      | b :: rest =>
        if low ≤ b.toNat && b.toNat ≤ high then
          continuation (value * 64 + (b.toNat - 0x80)) (read + 1) following 0x80 0xbf rest
        else .error (read, .invalidContinuation)

def decodeFrom (position : Nat) (skip : Nat) (done : List Char) :
    List UInt8 → Except Utf8Error (List Char)
  | [] => .ok done.reverse
  | b :: rest =>
    match skip with
    | skip + 1 => decodeFrom (position + 1) skip done rest
    | 0 =>
      match lead? b.toNat with
      | none => .error ⟨b, position, 1, .invalidStart⟩
      | some l =>
        match continuation l.bits 1 l.following l.low l.high rest with
        | .error (read, fault) => .error ⟨b, position, read, fault⟩
        | .ok value => decodeFrom (position + 1) l.following (Char.ofNat value :: done) rest

def decodeUtf8 (bytes : List UInt8) : Except Utf8Error (List Char) := decodeFrom 0 0 [] bytes

end FactorSearch.Text
