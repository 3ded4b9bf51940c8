import Transclude.Number.Reading
import Transclude.Text.Lines

/-!
# Line ranges

A line range is the number of a line, or two numbers with two points between them, each of which may
be left out. Lines are counted from one.
-/

namespace Transclude

open Transclude.Number

inductive LineRange where
  | single (digits : List Char)
  | between (first last : List Char)
deriving Repr, BEq, DecidableEq

namespace LineRange

def parse? (cs : List Char) : Option LineRange :=
  let first := cs.takeWhile Text.isDecimal
  match cs.drop first.length with
  | [] => if first.isEmpty then none else some (.single first)
  | '.' :: '.' :: last => if last.all Text.isDecimal then some (.between first last) else none
  | _ => none

def isValid (cs : List Char) : Bool :=
  (parse? cs).isSome

def number (digits : List Char) : Except IntFault Nat :=
  if digits.length > maxDigits then .error (.tooLong digits.length) else .ok (Text.digitsValue digits)

def numberOr (default : Nat) (digits : List Char) : Except IntFault Nat :=
  if digits.isEmpty then .ok default else number digits

/-- The lines from `first` to `last`, both included; none if `first` is no line or is after `last`. -/
def slice (first last : Nat) (lines : List (List Char)) : Option (List (List Char)) :=
  if 1 ≤ first && first ≤ lines.length && first ≤ last then
    some ((lines.take last).drop (first - 1))
  else none

def select (range : LineRange) (lines : List (List Char)) : Except IntFault (Option (List (List Char))) := do
  match range with
  | .single digits =>
    let n ← number digits
    return slice n n lines
  | .between first last =>
    let a ← numberOr 1 first
    let b ← numberOr lines.length last
    return slice a b lines

/-- The lines of the range of a text that another text writes; none if that is no range, or none of
these lines exists. -/
def extract (content range : List Char) : Except IntFault (Option (List (List Char))) :=
  match parse? range with
  | none => .ok none
  | some r => r.select (Text.lines content)

end LineRange

end Transclude
