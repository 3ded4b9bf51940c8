import Transclude.Path
import Transclude.Value.Shown

/-!
# Coverage

A coverage report says which statements of each file were missed. Its table lists the files with the least coverage
first.
-/

namespace Transclude.Measure

open Transclude.Number Transclude.Text

/-! ## Reading entries -/

def entry (v : Value) (key : String) : Value :=
  match v with
  | .map entries => (Value.get? entries key).getD .null
  | _ => .null

def entriesOf (v : Value) : List (String × Value) :=
  match v with
  | .map entries => entries.map fun e => (e.1.asText, e.2)
  | _ => []

def itemsOf (v : Value) : List Value :=
  match v with
  | .list items => items
  | _ => []

def numberOf (v : Value) : Binary64 :=
  match v with
  | .int n => .ofInt n
  | .float x => x
  | _ => .zero false

def intOf (v : Value) : Int :=
  match v with
  | .int n => n
  | _ => 0

/-! ## The table -/

structure FileCoverage where
  name : String
  statements : Int
  missed : Int
  percent : Binary64
  lines : List Value

def nameLength : Nat := 60

def shownLines : Nat := 12

def FileCoverage.ofEntry (folder : Path) (e : String × Value) : FileCoverage :=
  let summary := entry e.2 "summary"
  let path := Path.relativeFrom folder (Path.resolve folder (.ofText e.1))
  { name := String.ofList (path.text.toList.take nameLength)
    statements := intOf (entry summary "num_statements")
    missed := intOf (entry summary "missing_lines")
    percent := numberOf (entry summary "percent_covered")
    lines := itemsOf (entry e.2 "missing_lines") }

def FileCoverage.before (a b : FileCoverage) : Bool :=
  a.percent.lt b.percent || (a.percent.eq b.percent && a.missed ≥ b.missed)

def left (width : Nat) (s : String) : String :=
  String.ofList (padEnd width s.toList)

def right (width : Nat) (s : String) : String :=
  String.ofList (padStart width s.toList)

def columns (width : Nat) (name : String) (statements missed : Int) (percent : Binary64) : String :=
  left width name ++ "  " ++ right 5 (toString statements) ++ "  " ++ right 4 (toString missed) ++
    "  " ++ right 4 (percent.fixed 0) ++ "%"

def FileCoverage.row (width : Nat) (f : FileCoverage) : String :=
  let shown := ",".intercalate ((f.lines.take shownLines).map Value.asText)
  let more := if f.lines.length > shownLines then "…" else ""
  columns width f.name f.statements f.missed f.percent ++ "  " ++ shown ++ more

structure Totals where
  covered : Value
  statements : Value
  percent : Value

def Totals.ofReport (report : Value) : Totals :=
  let totals := entry report "totals"
  let given := fun (key : String) (default : Value) =>
    match entry totals key with
    | .null => default
    | v => v
  { covered := given "covered_lines" (.int 0)
    statements := given "num_statements" (.int 0)
    percent := given "percent_covered" (.float (.zero false)) }

def coverageTable (folder : Path) (report : Value) (totals : Totals) : List String :=
  let files := (entriesOf (entry report "files")).map (FileCoverage.ofEntry folder)
  let files := files.mergeSort FileCoverage.before
  let width := files.foldl (fun w f => max w f.name.length) 4
  let rule := String.ofList (List.replicate (width + 42) '-')
  let missed := intOf totals.statements - intOf totals.covered
  [left width "Name" ++ "  Stmts  Miss  Cover  Missing", rule] ++ files.map (·.row width) ++
    [rule, columns width "TOTAL" (intOf totals.statements) missed (numberOf totals.percent)]

def shownErrors : Nat := 8

def errorLines (errors : List (String × Value)) : List String :=
  if errors.isEmpty then []
  else ["", s!"{errors.length} bench error(s):"] ++
    (errors.take shownErrors).map fun e => s!"  {e.1}: {e.2.asText}"

end Transclude.Measure
