import Transclude.Sorting
import Transclude.Table.Condition
import Transclude.Time.Iso
import Transclude.Time.Pattern

/-!
# Views of tables

`View.render` writes what a view asks of a table: rows are filtered, columns selected, rows sorted and
cut, and the result is written as a Markdown table.
-/

namespace Transclude.Table

open Transclude.Number Transclude.Text Transclude.Time

/-! ## Selecting columns -/

def selectColumns : List (List Char) → Except Crash (List Column)
  | [] => .ok []
  | part :: rest =>
    match Column.parse? part with
    | some column => do return column :: (← selectColumns rest)
    | none =>
      let expr := String.ofList (trim part)
      .error (.broken s!"invalid select expression '{expr}' — must be caught by normalize_input")

def checkColumns (rows : List Row) (columns : List Column) : Except Crash Unit :=
  match rows with
  | [] => .ok ()
  | first :: _ =>
    match columns.find? fun c => (first.lookup c.source).isNone with
    | some c => .error (.broken s!"column '{c.source}' not found — must be caught by normalize_input")
    | none => .ok ()

def project (columns : List Column) (row : Row) : Row :=
  columns.foldl (fun r c => setCell r c.name (cell row c.source)) []

/-! ## Sorting -/

inductive CellKey where
  | number (x : Binary64)
  | text (s : String)
deriving Repr, BEq, DecidableEq

def CellKey.ofCell (s : String) : CellKey :=
  match readFloat s with
  | some x => .number x
  | none => .text s

def CellKey.less : CellKey → CellKey → Bool
  | .number a, .number b => a.lt b
  | .number _, .text _ => true
  | .text _, .number _ => false
  | .text a, .text b => decide (a < b)

def sortKeys : List (List Char) → Except Crash (List SortKey)
  | [] => .ok []
  | part :: rest =>
    match SortKey.parse? part with
    | some key => do return key :: (← sortKeys rest)
    | none =>
      let expr := String.ofList (trim part)
      .error (.broken s!"invalid order_by expression '{expr}' — must be caught by normalize_input")

def sortByKey (rows : List Row) (key : SortKey) : List Row :=
  let keyed := rows.map fun r => (CellKey.ofCell (cell r key.column), r)
  let less := fun a b : CellKey × Row => a.1.less b.1
  ((if key.descending then Sorting.descending less keyed else Sorting.ascending less keyed)).map (·.2)

def sortRows (keys : List SortKey) (rows : List Row) : List Row :=
  keys.reverse.foldl sortByKey rows

/-! ## Cutting -/

def dropTo {α : Type} (offset : Int) (xs : List α) : List α :=
  if offset < 0 then xs.drop (xs.length - offset.natAbs) else xs.drop offset.toNat

/-- At most `limit` elements; a negative limit is none. -/
def takeUpTo {α : Type} (limit : Int) (xs : List α) : List α :=
  if limit < 0 then xs else xs.take limit.toNat

/-! ## Writing -/

/-- A cell as it is written: an empty one by the text for nothing, a date in the format asked for, and
nothing that would break the table. -/
def formatCell (view : View) (value : String) : String :=
  if value == "" then view.nullText
  else
    let value := if view.dateFormat == "" then value
      else match readMoment value with
        | some moment => moment.write view.dateFormat
        | none => value
    let cs := value.toList.flatMap fun c =>
      if c == '|' then ['\\', '|'] else if c == '\n' then [' '] else if c == '\r' then [] else [c]
    if 0 < view.maxCell && view.maxCell < cs.length then
      String.ofList (cs.take (view.maxCell.toNat - 1)) ++ "…"
    else String.ofList cs

def tableLine (cells : List String) : String :=
  "| " ++ " | ".intercalate cells ++ " |"

def renderRows (view : View) (headers : List String) (rows : List Row) : String :=
  let lines := tableLine headers :: tableLine (headers.map fun _ => "---") ::
    rows.map fun r => tableLine (headers.map fun h => formatCell view (cell r h))
  "\n".intercalate lines ++ "\n"

def noResults : String := "> [!NOTE]\n> No results.\n"

def View.apply (view : View) (rows : List Row) : Except Crash (List Row × List String) := do
  let rows ← filterRows view.filter rows
  let (rows, headers) ←
    if view.select == "" then pure (rows, (rows.head?.getD []).map (·.1))
    else do
      let columns ← selectColumns (expressionParts view.select)
      checkColumns rows columns
      pure (rows.map (project columns), columns.map (·.name))
  let rows ←
    if view.orderBy == "" then pure rows
    else do
      let keys ← sortKeys (expressionParts view.orderBy)
      pure (sortRows keys rows)
  return (takeUpTo view.limit (dropTo view.offset rows), headers)

def View.render (view : View) (rows : List Row) : Except Crash String := do
  if rows.isEmpty then return noResults
  let (rows, headers) ← view.apply rows
  return if rows.isEmpty then noResults else renderRows view headers rows

end Transclude.Table
