import Transclude.Text.Lines

/-!
# Wildcards

In a wildcard `*` stands for any text, `?` for any character and `[...]` for a character of a set, or for any other if
the set begins with `!`. A bracket that is not closed stands for itself.
-/

namespace Transclude.Wildcard

inductive Piece where
  | any
  | one
  | char (c : Char)
  | set (negated : Bool) (ranges : List (Char × Char))
deriving Repr, BEq

/-! ## Sets -/

def cut (chunk : List Char) (kept : Nat) : List Char → List (List Char)
  | [] => [chunk.reverse]
  | c :: cs =>
    if c == '-' && kept = 0 then chunk.reverse :: cut [] 2 cs
    else cut (c :: chunk) (kept - 1) cs

def closeChunks (chunks : List (List Char)) : List (List Char) :=
  match chunks.reverse with
  | [] :: last :: rest => ((last ++ ['-']) :: rest).reverse
  | _ => chunks

def dropBackward : List (List Char) → List (List Char)
  | [] => []
  | chunk :: rest =>
    match dropBackward rest with
    | next :: more =>
      match chunk.getLast?, next.head? with
      | some a, some b =>
        if b.toNat < a.toNat then (chunk.dropLast ++ next.drop 1) :: more else chunk :: next :: more
      | _, _ => chunk :: next :: more
    | [] => [chunk]

def single (c : Char) : Char × Char :=
  (c, c)

def rangesOf : List (List Char) → List (Char × Char)
  | [] => []
  | [chunk] => chunk.map single
  | chunk :: next :: rest =>
    match chunk.getLast?, next.head? with
    | some a, some b => chunk.dropLast.map single ++ (a, b) :: rangesOf (next.drop 1 :: rest)
    | _, _ => single '-' :: rangesOf (next :: rest)
termination_by chunks => chunks.length

def setOf (body : List Char) : Piece :=
  let chunks := if body.contains '-' then
      dropBackward (closeChunks (cut [] (if body.head? = some '!' then 2 else 1) body))
    else [body]
  match chunks with
  | ('!' :: chunk) :: rest => .set true (rangesOf (chunk :: rest))
  | chunks => .set false (rangesOf chunks)

/-- The text between brackets and the text after them. The first character in a set is never its end. -/
def takeSet? (cs : List Char) : Option (List Char × List Char) :=
  let head := match cs with
    | '!' :: ']' :: _ => 2
    | '!' :: _ => 1
    | ']' :: _ => 1
    | _ => 0
  let inside := (cs.drop head).takeWhile (· != ']')
  match (cs.drop head).drop inside.length with
  | _ :: rest => some (cs.take head ++ inside, rest)
  | [] => none

def parse (cs : List Char) : Nat → List Piece
  | 0 => []
  | fuel + 1 =>
    match cs with
    | [] => []
    | '*' :: rest => .any :: parse (rest.dropWhile (· == '*')) fuel
    | '?' :: rest => .one :: parse rest fuel
    | '[' :: rest =>
      match takeSet? rest with
      | some (body, rest) => setOf body :: parse rest fuel
      | none => .char '[' :: parse rest fuel
    | c :: rest => .char c :: parse rest fuel

/-! ## Matching -/

def Piece.fits (p : Piece) (c : Char) : Bool :=
  match p with
  | .any => false
  | .one => true
  | .char d => c == d
  | .set negated ranges =>
    ranges.any (fun r => r.1.toNat ≤ c.toNat && c.toNat ≤ r.2.toNat) != negated

def anyTail (p : List Char → Bool) : List Char → Bool
  | [] => p []
  | c :: cs => p (c :: cs) || anyTail p cs

def fitsAll : List Piece → List Char → Bool
  | [], cs => cs.isEmpty
  | .any :: ps, cs => anyTail (fitsAll ps) cs
  | p :: ps, c :: cs => p.fits c && fitsAll ps cs
  | _ :: _, [] => false

def accepts (wildcard text : String) : Bool :=
  fitsAll (parse wildcard.toList (wildcard.length + 1)) text.toList

def isWild (s : String) : Bool :=
  s.toList.any fun c => c == '*' || c == '?' || c == '['

end Transclude.Wildcard
