import Transclude.Text.CodePoint

/-!
# White space

`isBlank` is the one class of white space: what trimming removes and what the class `\s` of a pattern means.
-/

namespace Transclude.Text

def blankRanges : List (Nat × Nat) := [
  (0x9, 0xd), (0x1c, 0x20), (0x85, 0x85), (0xa0, 0xa0), (0x1680, 0x1680), (0x2000, 0x200a),
  (0x2028, 0x2029), (0x202f, 0x202f), (0x205f, 0x205f), (0x3000, 0x3000)
]

def isBlank (c : Char) : Bool :=
  within blankRanges c

def trimStart (cs : List Char) : List Char :=
  cs.dropWhile isBlank

def trimEnd (cs : List Char) : List Char :=
  (cs.reverse.dropWhile isBlank).reverse

def trim (cs : List Char) : List Char :=
  trimEnd (trimStart cs)

def allBlank (cs : List Char) : Bool :=
  cs.all isBlank

def strip (s : String) : String :=
  String.ofList (trim s.toList)

def stripEnd (s : String) : String :=
  String.ofList (trimEnd s.toList)

end Transclude.Text
