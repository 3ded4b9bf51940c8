import Transclude.Value.Yaml.Cursor
import Transclude.Value.Yaml.Tree

/-!
# The style of a scalar

Whether a text can be written plain, in single quotes or as a block, by the characters in it.
-/

namespace Transclude.Yaml

structure Traits where
  empty : Bool
  multiline : Bool
  plain : Bool
  singleQuoted : Bool
  block : Bool

def isWrittenBreak (c : Char) : Bool :=
  [0xa, 0x85, 0x2028, 0x2029].contains c.toNat

def isOrdinary (c : Char) : Bool :=
  let n := c.toNat
  n == 10 || (0x20 ≤ n && n ≤ 0x7e) || n == 0x85 ||
    ((0xa0 ≤ n && n ≤ 0xfffd) && n != 0xfeff) || (0x10000 ≤ n && n < 0x10ffff)

def forbidsStart (c : Char) (follows : Option Char) : Bool :=
  "#,[]\x7b\x7d&*!|>'\"%@`".toList.contains c || ("?:-".toList.contains c && isGap follows)

def forbidsInside (before c : Char) (follows : Option Char) : Bool :=
  (c == ':' && isGap follows) || (c == '#' && isGap (some before))

def hasForbidden (before : Char) : List Char → Bool
  | [] => false
  | c :: cs => forbidsInside before c cs.head? || hasForbidden c cs

def hasNeighbours (p q : Char → Bool) : List Char → Bool
  | a :: b :: rest => (p a && q b) || hasNeighbours p q (b :: rest)
  | _ => false

def Traits.of (text : List Char) : Traits :=
  match text with
  | [] => { empty := true, multiline := false, plain := true, singleQuoted := true, block := false }
  | c :: cs =>
    let isSpace := (· == ' ')
    let isEdge := fun d : Char => d == ' ' || isWrittenBreak d
    let last := text.getLast?.getD c
    let multiline := text.any isWrittenBreak
    let marked := "---".toList.isPrefixOf text || "...".toList.isPrefixOf text ||
      forbidsStart c cs.head? || hasForbidden c cs
    let breakSpace := hasNeighbours isWrittenBreak isSpace text
    let special := hasNeighbours isSpace isWrittenBreak text || !text.all isOrdinary
    { empty := false
      multiline
      plain := !(marked || multiline || isEdge c || isEdge last || breakSpace || special)
      singleQuoted := !(breakSpace || special)
      block := !(last == ' ' || special) }

inductive Style where
  | plain
  | singleQuoted
  | doubleQuoted
  | literal
deriving DecidableEq

def Scalar.style (s : Scalar) (asKey : Bool) : Style :=
  let t := Traits.of s.text
  if s.literal then if !asKey && t.block then .literal else .doubleQuoted
  else if s.plainImplied && !(asKey && (t.empty || t.multiline)) && t.plain then .plain
  else if t.singleQuoted && !(asKey && t.multiline) then .singleQuoted
  else .doubleQuoted

end Transclude.Yaml
