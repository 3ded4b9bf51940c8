import Transclude.Text.Blank
import Transclude.Text.Case
import Transclude.Text.Lines

/-!
# Parameter lists

Declarations of one name are told apart by the types of their parameters. `splitParameters` cuts a list at its commas
outside angle brackets, and `accepts` compares a requested list with a declared one.
-/

namespace Transclude.Signature

open Transclude.Text

/-- The pieces of a list cut at the commas outside angle brackets, without the blanks around them;
`current` is the piece read so far, the last character first. A last piece that is blank does not
count. -/
def splitFrom (depth : Int) (current : List Char) : List Char → List (List Char)
  | [] =>
    let last := trim current.reverse
    if last.isEmpty then [] else [last]
  | c :: cs =>
    if c == ',' && depth == 0 then trim current.reverse :: splitFrom 0 [] cs
    else
      let depth := if c == '<' then depth + 1 else if c == '>' then depth - 1 else depth
      splitFrom depth (c :: current) cs

def splitParameters (cs : List Char) : List (List Char) :=
  if allBlank cs then [] else splitFrom 0 [] cs

/-- The place of the last space outside angle brackets; `place` is where the text begins. -/
def lastSpace? (depth : Int) (place : Nat) : List Char → Option Nat
  | [] => none
  | c :: cs =>
    let rest := fun depth => lastSpace? depth (place + 1) cs
    if c == '<' then rest (depth + 1)
    else if c == '>' then rest (depth - 1)
    else if c == ' ' && depth == 0 then (rest depth).or (some place)
    else rest depth

def typeOf (parameter : List Char) : List Char :=
  let p := trim parameter
  match lastSpace? 0 0 p with
  | some (n + 1) => p.take (n + 1)
  | _ => p

def modifiers : List (List Char) :=
  ["ref ", "out ", "in ", "params ", "this ", "final "].map String.toList

def dropModifier (p : List Char) : List Char :=
  match modifiers.find? (·.isPrefixOf (lowerChars p)) with
  | some m => trim (p.drop m.length)
  | none => p

def dropDefault (p : List Char) : List Char :=
  if p.contains '=' then trim (p.takeWhile (· != '=')) else p

def typesOf (cs : List Char) : List (List Char) :=
  (splitParameters (trim cs)).filter (!·.isEmpty) |>.map fun p => typeOf (dropModifier (dropDefault p))

/-- What stands in the first pair of parentheses; `depth` parentheses are open, and `inside` is what
has been read in them, the last character first. -/
def insideParentheses? (depth : Nat) (inside : List Char) : List Char → Option (List Char)
  | [] => none
  | c :: cs =>
    match depth, c with
    | 0, '(' => insideParentheses? 1 [] cs
    | 0, _ => insideParentheses? 0 inside cs
    | 1, ')' => some inside.reverse
    | d + 1, ')' => insideParentheses? d (c :: inside) cs
    | d + 1, '(' => insideParentheses? (d + 2) (c :: inside) cs
    | d, _ => insideParentheses? d (c :: inside) cs

def maxLines : Nat := 10

def declaredTypes? (lines : List (List Char)) : Option (List (List Char)) :=
  (insideParentheses? 0 [] (lines.take maxLines).flatten).map typesOf

/-- Whether a requested type is a declared one: the same without regard to case, or the end of it after
a point. -/
def acceptsType (requested declared : List Char) : Bool :=
  let r := lowerChars (trim requested)
  let d := lowerChars (trim declared)
  r == d || endsWith d ('.' :: r)

def accepts : List (List Char) → List (List Char) → Bool
  | [], [] => true
  | r :: rs, d :: ds => acceptsType r d && accepts rs ds
  | _, _ => false

end Transclude.Signature
