import Transclude.Crash
import Transclude.Status
import Transclude.Table.Basic

/-!
# Reading tables

The rows of a table come from delimited records or from a JSON list of objects. Columns and orders that are asked for
are checked against them.
-/

namespace Transclude.Table

open Transclude.Text

inductive Problem where
  | noRows
  | unsupported (ext : String)
  | malformedJson (fault : Json.Fault)
  | notList (kind : String)
  | notObjects
  | noColumn (name : String) (available : List String)
  | badSelect (expr : String)
  | badOrder (expr : String)
deriving Repr, DecidableEq

def Problem.message : Problem → String
  | .noRows => "file contains no data rows."
  | .unsupported ext => s!"unsupported file format '{ext}'. Supported: csv, tsv, json."
  | .malformedJson fault => s!"invalid JSON: {fault.message}"
  | .notList kind => s!"JSON must be an array of objects, got '{kind}'."
  | .notObjects => "JSON array must contain only objects."
  | .noColumn name available =>
    let names := ", ".intercalate available
    s!"column '{name}' not found. Available: {names}."
  | .badSelect expr => s!"invalid select expression: '{expr}'."
  | .badOrder expr => s!"invalid order_by expression: '{expr}'."

def surplusColumn : String := "None"

def rowOf (headers fields : List (List Char)) : Row :=
  let named := (headers.zip fields).foldl
    (fun r (h, f) => setCell r (String.ofList h) (String.ofList f)) []
  if headers.length < fields.length then
    let surplus := (fields.drop headers.length).map fun f => Value.text (String.ofList f)
    setCell named surplusColumn (Value.list surplus).shown
  else
    (headers.drop fields.length).foldl (fun r h => setCell r (String.ofList h) "") named

/-- The rows of a text of records, of which the first names the columns. Records without fields do not
count. -/
def readDelimited (delimiter : Char) (content : String) : Except Crash (List Row) := do
  match ← (Csv.records delimiter content.toList).mapError .csv with
  | [] => return []
  | headers :: rest => return (rest.filter (!·.isEmpty)).map (rowOf headers)

def cellText : Value → String
  | .null => ""
  | .bool b => if b then "true" else "false"
  | v => v.asText

def rowOfObject (entries : List (Value × Value)) : Row :=
  entries.foldl (fun r (k, v) => setCell r k.asText (cellText v)) []

def readJson (content : String) : Except Crash (Except Problem (List Row)) :=
  match Json.read content with
  | .error (.integer digits) => .error (.longInteger digits)
  | .error fault => .ok (.error (.malformedJson fault))
  | .ok (.list items) =>
    let rows := items.mapM fun v => match v with
      | .map entries => some (rowOfObject entries)
      | _ => none
    .ok (match rows with
      | some rows => .ok rows
      | none => .error .notObjects)
  | .ok v => .ok (.error (.notList v.kind))

def checkSelect (rows : List Row) (select : String) : List Problem :=
  match rows with
  | [] => []
  | first :: _ =>
    if select == "" then []
    else
      let available := first.map (·.1)
      (expressionParts select).filterMap fun part =>
        match Column.parse? part with
        | none => some (.badSelect (String.ofList (trim part)))
        | some column =>
          if available.contains column.source then none
          else some (.noColumn column.source (sortTexts available))

def checkOrder (orderBy : String) : List Problem :=
  if orderBy == "" then []
  else
    (expressionParts orderBy).filterMap fun part =>
      match SortKey.parse? part with
      | none => some (.badOrder (String.ofList (trim part)))
      | some _ => none

def checked (select orderBy : String) (rows : List Row) : Except (List Problem) (List Row) :=
  if rows.isEmpty then .error [.noRows]
  else
    match checkSelect rows select ++ checkOrder orderBy with
    | [] => .ok rows
    | problems => .error problems

def readRows (ext select orderBy content : String) : Except Crash (Except (List Problem) (List Row)) := do
  match ext with
  | "csv" => return checked select orderBy (← readDelimited ',' content)
  | "tsv" => return checked select orderBy (← readDelimited '\t' content)
  | "json" =>
    match ← readJson content with
    | .ok rows => return checked select orderBy rows
    | .error problem => return .error [problem]
  | ext => return .error [.unsupported ext]

end Transclude.Table
