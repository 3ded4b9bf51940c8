import Transclude.Value.Yaml.Fault

/-!
# A place in a YAML document

A cursor is what is left to read, with the place it stands at. The column does not count byte order marks.
-/

namespace Transclude.Yaml

structure Cursor where
  rest : List Char
  index : Nat
  line : Nat
  column : Nat

def isBreak (c : Char) : Bool :=
  [0xa, 0xd, 0x85, 0x2028, 0x2029].contains c.toNat

def isGap : Option Char → Bool
  | none => true
  | some c => c == ' ' || c == '\t' || isBreak c

def isSpaceGap : Option Char → Bool
  | none => true
  | some c => c == ' ' || isBreak c

def isLineEnd : Option Char → Bool
  | none => true
  | some c => isBreak c

namespace Cursor

def start (cs : List Char) : Cursor :=
  { rest := cs, index := 0, line := 0, column := 0 }

def peek (c : Cursor) : Option Char :=
  c.rest.head?

def peekAt (c : Cursor) (n : Nat) : Option Char :=
  c.rest[n]?

def sees (c : Cursor) (s : String) : Bool :=
  s.toList.isPrefixOf c.rest

def next (c : Cursor) : Cursor :=
  match c.rest with
  | [] => c
  | ch :: rest =>
    if isBreak ch && !(ch == '\r' && rest.head? == some '\n') then
      { rest, index := c.index + 1, line := c.line + 1, column := 0 }
    else if ch.toNat == 0xfeff then { c with rest, index := c.index + 1 }
    else { c with rest, index := c.index + 1, column := c.column + 1 }

def skip (c : Cursor) : Nat → Cursor
  | 0 => c
  | n + 1 => c.next.skip n

def span (c : Cursor) (p : Char → Bool) : List Char × Cursor :=
  let taken := c.rest.takeWhile p
  (taken, c.skip taken.length)

def skipWhile (c : Cursor) (p : Char → Bool) : Cursor :=
  (c.span p).2

def lineBreak (c : Cursor) : List Char × Cursor :=
  match c.rest with
  | '\r' :: '\n' :: _ => (['\n'], c.skip 2)
  | ch :: _ =>
    if ch == '\n' || ch == '\r' || ch.toNat == 0x85 then (['\n'], c.next)
    else if isBreak ch then ([ch], c.next)
    else ([], c)
  | [] => ([], c)

def atMarker (c : Cursor) : Bool :=
  (c.sees "---" || c.sees "...") && isGap (c.peekAt 3)

end Cursor

end Transclude.Yaml
