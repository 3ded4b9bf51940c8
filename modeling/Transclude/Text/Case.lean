import Transclude.Text.CodePoint

/-!
# Lower case

Two rules of `lower` go beyond one character: the capital I with a dot becomes an i followed by a combining dot, and
the capital sigma takes its final form at the end of a word.
-/

namespace Transclude.Text

/-- Ranges in which each capital stands right before its lower case. -/
def pairedRanges : List (Nat × Nat) := rangesFrom 0 [
  256, 46, 4, 4, 3, 14, 3, 44, 3, 4, 5, 2, 3, 0, 4, 0, 6, 0, 7, 0, 8, 4, 3, 0, 5, 0, 3, 0, 4, 2, 3,
  0, 4, 0, 9, 0, 3, 0, 3, 16, 3, 16, 4, 2, 4, 38, 4, 16, 9, 0, 6, 0, 5, 8, 290, 2, 4, 0, 98, 22, 9,
  0, 3, 0, 102, 32, 10, 52, 3, 12, 3, 94, 6354, 148, 12, 94, 645, 0, 2781, 0, 7, 4, 7, 0, 3, 0, 11,
  98, 9, 2, 5, 0, 31054, 44, 20, 26, 136, 12, 4, 60, 11, 2, 3, 8, 5, 0, 5, 2, 4, 18, 12, 14, 5, 2,
  7, 0, 6, 2, 29, 0]

/-- The runs `(first, last, shift)` that a list stands for: as with `rangesFrom`, and how far the lower cases are
from the capitals. -/
def runsFrom (last : Int) : List Int → List (Int × Int × Int)
  | gap :: length :: shift :: rest => (last + gap, last + gap + length, shift) :: runsFrom (last + gap + length) rest
  | _ => []

def capitalRuns : List (Int × Int × Int) := runsFrom 0 [
  192, 22, 32, 2, 6, 32, 82, 0, -199, 72, 0, -121, 9, 0, 210, 5, 0, 206, 3, 1, 205, 4, 0, 79, 1, 0,
  202, 1, 0, 203, 3, 0, 205, 1, 0, 207, 2, 0, 211, 1, 0, 209, 5, 0, 211, 1, 0, 213, 2, 0, 214, 7, 0,
  218, 3, 0, 218, 5, 0, 218, 3, 1, 217, 5, 0, 219, 13, 0, 2, 3, 0, 2, 3, 0, 2, 39, 0, 2, 5, 0, -97,
  1, 0, -56, 41, 0, -130, 26, 0, 10795, 3, 0, -163, 1, 0, 10792, 5, 0, -195, 1, 0, 69, 1, 0, 71,
  314, 0, 116, 7, 0, 38, 2, 2, 37, 2, 0, 64, 2, 1, 63, 2, 16, 32, 2, 8, 32, 36, 0, 8, 37, 0, -60, 5,
  0, -7, 4, 2, -130, 1, 15, 80, 1, 31, 32, 145, 0, 15, 113, 37, 48, 2890, 37, 7264, 2, 0, 7264, 6,
  0, 7264, 723, 79, 38864, 1, 5, 8, 2203, 42, -3008, 3, 2, -3008, 479, 0, -7615, 106, 7, -8, 9, 5,
  -8, 11, 7, -8, 9, 7, -8, 9, 5, -8, 12, 0, -8, 2, 0, -8, 2, 0, -8, 2, 0, -8, 9, 7, -8, 25, 7, -8,
  9, 7, -8, 9, 7, -8, 9, 1, -8, 1, 1, -74, 1, 0, -9, 12, 3, -86, 1, 0, -9, 12, 1, -8, 1, 1, -100,
  13, 1, -8, 1, 1, -112, 1, 0, -7, 12, 1, -128, 1, 1, -126, 1, 0, -9, 298, 0, -7517, 4, 0, -8383, 1,
  0, -8262, 7, 0, 28, 46, 15, 16, 839, 25, 26, 1841, 47, 48, 51, 0, -10743, 1, 0, -3814, 1, 0,
  -10727, 9, 0, -10780, 1, 0, -10749, 1, 0, -10783, 1, 0, -10782, 14, 1, -10815, 31486, 0, -35332,
  16, 0, -42280, 29, 0, -42308, 1, 0, -42319, 1, 0, -42315, 1, 0, -42305, 1, 0, -42308, 2, 0,
  -42258, 1, 0, -42282, 1, 0, -42261, 1, 0, 928, 17, 0, -48, 1, 0, -42307, 1, 0, -35384, 22363, 25,
  32, 1222, 39, 40, 137, 35, 40, 157, 10, 39, 2, 14, 39, 2, 6, 39, 2, 1, 39, 1771, 50, 64, 3054, 31,
  32, 21889, 31, 32, 31393, 33, 34]

def casedRanges : List (Nat × Nat) := rangesFrom 0 [
  65, 25, 7, 25, 48, 0, 11, 0, 5, 0, 6, 22, 2, 30, 2, 194, 2, 3, 5, 207, 2, 26, 193, 3, 3, 1, 4, 2,
  2, 0, 7, 0, 2, 2, 2, 0, 2, 19, 2, 82, 2, 138, 9, 165, 2, 37, 10, 40, 2840, 37, 2, 0, 6, 0, 3, 42,
  3, 2, 673, 85, 3, 5, 2179, 8, 8, 42, 3, 2, 65, 43, 64, 12, 2, 33, 102, 277, 3, 5, 3, 37, 3, 5, 3,
  7, 2, 0, 2, 0, 2, 0, 2, 30, 3, 52, 2, 6, 2, 0, 4, 2, 2, 6, 4, 3, 3, 5, 5, 12, 6, 2, 2, 6, 262, 0,
  5, 0, 3, 9, 2, 0, 4, 4, 7, 0, 2, 0, 2, 0, 2, 3, 2, 5, 5, 0, 3, 3, 6, 4, 5, 0, 18, 31, 4, 1, 818,
  51, 1815, 123, 3, 102, 7, 3, 4, 1, 13, 37, 2, 0, 6, 0, 30995, 45, 19, 27, 135, 77, 2, 22, 4, 3, 2,
  58, 6, 1, 2, 0, 2, 4, 28, 1, 4, 0, 822, 42, 6, 8, 8, 79, 20289, 6, 13, 4, 1034, 25, 7, 25, 1190,
  79, 97, 35, 5, 35, 117, 10, 2, 14, 2, 6, 2, 1, 2, 10, 2, 14, 2, 6, 2, 1, 1732, 50, 14, 50, 2990,
  63, 21857, 63, 25985, 84, 2, 70, 2, 1, 3, 0, 3, 1, 3, 3, 2, 11, 2, 0, 2, 6, 2, 64, 2, 3, 3, 7, 2,
  6, 2, 27, 2, 3, 2, 4, 2, 0, 4, 6, 2, 339, 3, 24, 2, 24, 2, 30, 2, 24, 2, 30, 2, 24, 2, 30, 2, 24,
  2, 30, 2, 24, 2, 7, 1845, 9, 2, 19, 2530, 67, 2029, 25, 7, 25, 7, 25]

def caseIgnorableRanges : List (Nat × Nat) := rangesFrom 0 [
  39, 0, 7, 0, 12, 0, 36, 0, 2, 0, 72, 0, 5, 0, 2, 0, 5, 0, 3, 1, 504, 191, 5, 1, 5, 0, 10, 1, 2, 0,
  252, 6, 208, 0, 6, 0, 50, 44, 2, 0, 2, 1, 2, 1, 2, 0, 45, 0, 12, 5, 11, 10, 2, 0, 36, 0, 11, 20,
  17, 0, 102, 7, 2, 9, 2, 3, 34, 0, 2, 0, 31, 26, 92, 10, 59, 10, 5, 0, 3, 0, 25, 23, 44, 2, 45, 0,
  8, 1, 7, 7, 42, 57, 56, 0, 2, 0, 5, 7, 5, 0, 4, 6, 11, 1, 14, 0, 16, 0, 59, 0, 5, 3, 9, 0, 21, 1,
  27, 0, 3, 1, 58, 0, 5, 1, 5, 1, 3, 2, 4, 0, 31, 1, 4, 0, 12, 1, 58, 0, 5, 4, 2, 1, 5, 0, 21, 1,
  23, 5, 2, 0, 59, 0, 3, 0, 2, 3, 9, 0, 8, 1, 12, 1, 31, 0, 62, 0, 13, 0, 51, 0, 4, 0, 56, 0, 2, 2,
  6, 2, 2, 3, 8, 1, 12, 1, 30, 0, 59, 0, 3, 0, 7, 0, 6, 1, 21, 1, 29, 1, 58, 1, 5, 3, 9, 0, 21, 1,
  30, 0, 73, 0, 8, 2, 2, 0, 91, 0, 3, 6, 12, 8, 99, 0, 3, 8, 10, 0, 2, 5, 75, 1, 28, 0, 2, 0, 2, 0,
  56, 13, 2, 4, 2, 1, 6, 10, 2, 35, 10, 0, 103, 3, 2, 5, 2, 1, 3, 1, 26, 1, 5, 2, 17, 3, 14, 0, 3,
  1, 7, 0, 16, 0, 95, 0, 609, 2, 947, 2, 30, 1, 31, 1, 31, 1, 65, 1, 2, 6, 9, 0, 3, 10, 4, 0, 6, 0,
  46, 4, 52, 0, 66, 1, 35, 0, 119, 2, 5, 1, 10, 0, 7, 2, 220, 1, 3, 0, 59, 0, 2, 6, 2, 0, 2, 0, 3,
  7, 7, 9, 3, 0, 40, 0, 9, 30, 50, 3, 49, 0, 2, 4, 2, 0, 6, 0, 41, 8, 13, 1, 33, 3, 3, 1, 2, 2, 57,
  0, 2, 1, 4, 0, 2, 2, 59, 7, 3, 1, 65, 5, 83, 2, 2, 12, 2, 6, 5, 0, 7, 0, 4, 1, 51, 62, 14, 0, 35,
  100, 446, 0, 2, 2, 12, 2, 14, 2, 14, 2, 14, 1, 13, 4, 9, 1, 11, 0, 3, 0, 3, 4, 50, 4, 2, 9, 2, 0,
  14, 0, 17, 12, 52, 32, 2956, 1, 114, 2, 126, 0, 16, 0, 97, 31, 48, 0, 470, 0, 37, 3, 4, 4, 6, 0,
  94, 5, 94, 2, 28439, 0, 1251, 5, 271, 0, 99, 3, 2, 9, 2, 0, 29, 3, 81, 1, 15, 33, 79, 0, 24, 2,
  104, 2, 4, 1, 9, 0, 4, 0, 5, 0, 26, 1, 6, 0, 152, 1, 27, 17, 14, 0, 39, 7, 26, 10, 47, 2, 49, 0,
  3, 3, 3, 1, 18, 0, 22, 1, 67, 5, 3, 1, 3, 1, 13, 0, 9, 0, 36, 0, 12, 0, 52, 0, 2, 2, 3, 1, 6, 1,
  2, 0, 28, 0, 15, 1, 6, 1, 2, 0, 101, 4, 10, 2, 122, 0, 3, 0, 5, 0, 20273, 0, 148, 16, 574, 15, 4,
  0, 13, 15, 35, 0, 3, 0, 170, 0, 8, 0, 7, 0, 12, 0, 36, 0, 2, 0, 48, 0, 46, 1, 68, 0, 22, 2, 514,
  0, 227, 0, 150, 4, 1030, 5, 2, 41, 2, 8, 583, 2, 2, 1, 6, 3, 41, 2, 5, 0, 166, 1, 574, 3, 388, 1,
  154, 10, 50, 3, 124, 0, 55, 14, 42, 0, 3, 1, 11, 2, 50, 3, 3, 1, 3, 0, 5, 0, 11, 0, 51, 2, 37, 4,
  2, 7, 63, 0, 13, 1, 53, 8, 11, 3, 3, 0, 96, 2, 3, 0, 2, 1, 7, 0, 161, 0, 4, 7, 22, 1, 58, 1, 4, 0,
  38, 6, 4, 4, 196, 7, 3, 2, 2, 0, 24, 0, 85, 5, 2, 0, 5, 1, 2, 1, 239, 3, 7, 1, 2, 1, 28, 1, 86, 7,
  3, 0, 2, 1, 107, 0, 2, 0, 3, 5, 2, 0, 102, 2, 3, 3, 2, 4, 260, 8, 2, 1, 257, 1, 2, 0, 5, 0, 145,
  3, 3, 1, 5, 0, 33, 9, 41, 5, 3, 3, 9, 0, 10, 5, 3, 2, 47, 12, 2, 1, 407, 6, 2, 5, 2, 0, 83, 21, 3,
  6, 2, 1, 2, 1, 123, 5, 4, 0, 2, 1, 2, 6, 2, 0, 73, 1, 4, 0, 2, 0, 348, 1, 5436, 8, 14008, 4, 60,
  6, 10, 3, 1036, 0, 64, 16, 65, 1, 2, 1, 16396, 3, 2, 6, 2, 1, 3231, 1, 2, 3, 4701, 45, 3, 22, 545,
  2, 10, 15, 3, 6, 31, 3, 149, 2, 1980, 54, 5, 49, 9, 0, 15, 0, 23, 4, 2, 14, 1361, 6, 2, 16, 3, 6,
  2, 1, 2, 4, 262, 13, 369, 0, 62, 3, 1505, 6, 110, 7, 2736, 4, 789506, 0, 31, 95, 129, 239]

/-- Lower case letters that are taken for the same one. -/
def letterTwins : List (List Nat) := [
  [0x69, 0x131], [0x73, 0x17f], [0xb5, 0x3bc], [0x345, 0x3b9, 0x1fbe], [0x390, 0x1fd3],
  [0x3b0, 0x1fe3], [0x3b2, 0x3d0], [0x3b5, 0x3f5], [0x3b8, 0x3d1], [0x3ba, 0x3f0], [0x3c0, 0x3d6],
  [0x3c1, 0x3f1], [0x3c2, 0x3c3], [0x3c6, 0x3d5], [0x432, 0x1c80], [0x434, 0x1c81], [0x43e, 0x1c82],
  [0x441, 0x1c83], [0x442, 0x1c84, 0x1c85], [0x44a, 0x1c86], [0x463, 0x1c87], [0x1c88, 0xa64b],
  [0x1e61, 0x1e9b], [0xfb05, 0xfb06]]

def lowerChar (c : Char) : Char :=
  if c.toNat < 0x80 then c.toLower
  else if pairedRanges.any fun (first, last) => first ≤ c.toNat && c.toNat ≤ last && (c.toNat - first) % 2 == 0 then
    Char.ofNat (c.toNat + 1)
  else
    match capitalRuns.find? fun (first, last, _) => first ≤ c.toNat && c.toNat ≤ last with
    | some (_, _, shift) => Char.ofNat (c.toNat + shift).toNat
    | none => c

def isCased (c : Char) : Bool :=
  within casedRanges c

def isCaseIgnorable (c : Char) : Bool :=
  within caseIgnorableRanges c

def meetsCased (cs : List Char) : Bool :=
  ((cs.dropWhile isCaseIgnorable).head?).any isCased

/-- The lower case of `cs`, where `before` holds the characters already read, last one first. -/
def lowerAfter (before : List Char) : List Char → List Char
  | [] => []
  | c :: rest =>
    let written :=
      if c == 'Σ' then [if meetsCased before && !meetsCased rest then 'ς' else 'σ']
      else if c == 'İ' then ['i', '\u0307']
      else [lowerChar c]
    written ++ lowerAfter (c :: before) rest

def lowerChars (cs : List Char) : List Char :=
  lowerAfter [] cs

def lower (s : String) : String :=
  String.ofList (lowerChars s.toList)

def sameLetter (a b : Char) : Bool :=
  let x := lowerChar a
  let y := lowerChar b
  x == y || letterTwins.any fun twins => twins.contains x.toNat && twins.contains y.toNat

def afterWords? : List Char → List Char → Option (List Char)
  | [], cs => some cs
  | _ :: _, [] => none
  | w :: words, c :: cs => if sameLetter w c then afterWords? words cs else none

end Transclude.Text
