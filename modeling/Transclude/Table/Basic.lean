import Transclude.Text.Blank
import Transclude.Text.Case
import Transclude.Text.Lines
import Transclude.Text.Word
import Transclude.Value.Basic

/-!
# Tables

The rows of a table, and what can be asked of it: which columns to show and under which names, in which
order, how many rows, and how cells are written.
-/

namespace Transclude.Table

open Transclude.Text

abbrev Row := List (String × String)

def cell (row : Row) (column : String) : String :=
  (row.lookup column).getD ""

def setCell (row : Row) (column value : String) : Row :=
  match row with
  | [] => [(column, value)]
  | (c, v) :: rest => if c == column then (c, value) :: rest else (c, v) :: setCell rest column value

structure View where
  select : String := ""
  orderBy : String := ""
  limit : Int := -1
  offset : Int := 0
  filter : Value := .map []
  dateFormat : String := ""
  nullText : String := ""
  maxCell : Int := 0

/-! ## Columns and orders -/

structure Column where
  source : String
  name : String
deriving Repr, BEq, DecidableEq

structure SortKey where
  column : String
  descending : Bool
deriving Repr, BEq, DecidableEq

def takeWord? (cs : List Char) : Option (List Char × List Char) :=
  match cs.takeWhile isWord with
  | [] => none
  | word => some (word, cs.drop word.length)

def afterBlanks? : List Char → Option (List Char)
  | [] => none
  | c :: cs => if isBlank c then some (trimStart cs) else none

/-- The column that `name` or `name as other` asks for. -/
def Column.parse? (part : List Char) : Option Column := do
  let (source, rest) ← takeWord? (trimStart part)
  if allBlank rest then
    return { source := String.ofList source, name := String.ofList source }
  else
    let rest ← afterWords? ['a', 's'] (← afterBlanks? rest)
    let (name, rest) ← takeWord? (← afterBlanks? rest)
    if allBlank rest then
      return { source := String.ofList source, name := String.ofList name }
    else none

/-- The order that `name`, `name asc` or `name desc` asks for. -/
def SortKey.parse? (part : List Char) : Option SortKey := do
  let (column, rest) ← takeWord? (trimStart part)
  if allBlank rest then return { column := String.ofList column, descending := false }
  else
    let word := trimEnd (← afterBlanks? rest)
    if [['a', 's', 'c'], ['d', 'e', 's', 'c']].any fun w => afterWords? w word == some [] then
      return { column := String.ofList column, descending := lowerChars word == ['d', 'e', 's', 'c'] }
    else none

def expressionParts (s : String) : List (List Char) :=
  splitAt ',' s.toList

end Transclude.Table
