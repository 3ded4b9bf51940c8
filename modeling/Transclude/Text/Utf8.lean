import Transclude.Text.Quoted

/-!
# UTF-8

`decode` says of bytes that are no text where they fail first: at a byte that starts no character, at one that does
not go on with one, or at the end.
-/

namespace Transclude.Utf8

inductive Reason where
  | start
  | continuation
  | ending
deriving Repr, BEq, DecidableEq

def Reason.message : Reason → String
  | .start => "invalid start byte"
  | .continuation => "invalid continuation byte"
  | .ending => "unexpected end of data"

/-- The first place at which bytes are no text: its first byte and the bytes from `first` to before `stop`. -/
structure Fault where
  byte : UInt8
  first : Nat
  stop : Nat
  reason : Reason
deriving Repr, BEq, DecidableEq

def Fault.message (f : Fault) : String :=
  let place := if f.stop = f.first + 1 then
      "byte 0x" ++ String.ofList (Text.hex 2 f.byte.toNat) ++ s!" in position {f.first}"
    else s!"bytes in position {f.first}-{f.stop - 1}"
  "'utf-8' codec can't decode " ++ place ++ ": " ++ f.reason.message

def isTail (b : UInt8) : Bool :=
  0x80 ≤ b && b < 0xc0

def secondBounds (b : UInt8) : UInt8 × UInt8 :=
  if b == 0xe0 then (0xa0, 0xbf)
  else if b == 0xed then (0x80, 0x9f)
  else if b == 0xf0 then (0x90, 0xbf)
  else if b == 0xf4 then (0x80, 0x8f)
  else (0x80, 0xbf)

def tailLength? (b : UInt8) : Option Nat :=
  if b < 0x80 then some 0
  else if b < 0xc2 then none
  else if b < 0xe0 then some 1
  else if b < 0xf0 then some 2
  else if b < 0xf5 then some 3
  else none

def goodTail (b : UInt8) (tail : List UInt8) : Nat :=
  match tail with
  | [] => 0
  | second :: rest =>
    let (low, high) := secondBounds b
    if low ≤ second && second ≤ high then 1 + (rest.takeWhile isTail).length else 0

/-- The first place at which bytes are no text, counted from `place`. -/
def fault? (place : Nat) (bytes : List UInt8) : Nat → Option Fault
  | 0 => none
  | fuel + 1 =>
    match bytes with
    | [] => none
    | b :: rest =>
      match tailLength? b with
      | none => some { byte := b, first := place, stop := place + 1, reason := .start }
      | some n =>
        let tail := rest.take n
        let good := goodTail b tail
        if good = n then fault? (place + n + 1) (rest.drop n) fuel
        else
          let reason := if good = tail.length then .ending else .continuation
          some { byte := b, first := place, stop := place + 1 + good, reason }

def decode (bytes : ByteArray) : Except Fault String :=
  match String.fromUTF8? bytes with
  | some s => .ok s
  | none =>
    let all := bytes.toList
    .error ((fault? 0 all (all.length + 1)).getD { byte := 0, first := 0, stop := 1, reason := .start })

end Transclude.Utf8
