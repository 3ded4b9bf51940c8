import Transclude.Crash
import Transclude.Table.Basic

/-!
# Conditions on cells

A condition is a comparison sign and a value, or a value alone, which the cell must equal. Two numbers are compared as
numbers, anything else as texts.
-/

namespace Transclude.Table

open Transclude.Number Transclude.Text

inductive Comparison where
  | ne
  | le
  | ge
  | lt
  | gt
  | eq
deriving Repr, BEq, DecidableEq

def Comparison.signs : List (List Char × Comparison) := [
  (['!', '='], .ne), (['<', '='], .le), (['>', '='], .ge), (['<'], .lt), (['>'], .gt), (['='], .eq)]

def Comparison.ofNumbers (c : Comparison) (a b : Binary64) : Bool :=
  match c with
  | .ne => !a.eq b
  | .le => a.le b
  | .ge => b.le a
  | .lt => a.lt b
  | .gt => b.lt a
  | .eq => a.eq b

def Comparison.ofTexts (c : Comparison) (a b : String) : Bool :=
  match c with
  | .ne => a != b
  | .le => lessEq a b
  | .ge => lessEq b a
  | .lt => !lessEq b a
  | .gt => !lessEq a b
  | .eq => a == b

structure Condition where
  comparison : Comparison
  target : String
deriving Repr, BEq, DecidableEq

/-- The value after a comparison sign: a single line that is not empty. A line feed may follow it, and
blanks around it do not count. -/
def conditionTarget? (cs : List Char) : Option (List Char) :=
  let body := match cs.reverse with
    | '\n' :: rest => rest.reverse
    | _ => cs
  let value := trimStart body
  if value.isEmpty then
    match body.getLast? with
    | some c => if c == '\n' then none else some []
    | none => none
  else if value.contains '\n' then none
  else some (trimEnd value)

def Condition.parse (s : String) : Condition :=
  let signed := Comparison.signs.findSome? fun (sign, comparison) => do
    let rest ← after? sign s.toList
    let target ← conditionTarget? rest
    return ({ comparison, target := String.ofList target } : Condition)
  signed.getD { comparison := .eq, target := s }

def Condition.holds (c : Condition) (value : String) : Bool :=
  match readFloat value, readFloat c.target with
  | some a, some b => c.comparison.ofNumbers a b
  | _, _ => c.comparison.ofTexts value c.target

def admits (row : Row) : List (Value × Value) → Except Crash Bool
  | [] => .ok true
  | (column, condition) :: rest =>
    match condition with
    | .text s =>
      let value := match column with
        | .text name => cell row name
        | _ => ""
      if (Condition.parse s).holds value then admits row rest else .ok false
    | v => .error (.notText v.kind)

def filterRows (filter : Value) (rows : List Row) : Except Crash (List Row) :=
  if !filter.isTruthy then .ok rows
  else
    match filter with
    | .map conditions => rows.filterM fun row => admits row conditions
    | v => if rows.isEmpty then .ok rows else .error (.noAttribute v.kind "items")

end Transclude.Table
