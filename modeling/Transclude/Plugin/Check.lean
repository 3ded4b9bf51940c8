import Transclude.Digest.StopWord
import Transclude.Plugin.Basic
import Transclude.Plugin.Embed
import Transclude.Table.Source

/-!
# Checking directives

Before a document is compiled, every directive in it is checked by its plugin, and its source is read
into the data that the plugin works on.
-/

namespace Transclude.Plugin

open Transclude.Text

/-! ## Options -/

def kindErrors (options : Options) (kinds : List (String × OptionKind)) : List Status :=
  kinds.filterMap fun k => options.validate k.1 k.2

def leastError (options : Options) (name : String) (least default : Int) : List Status :=
  match options.validate name .int with
  | some s => [s]
  | none =>
    let value := options.intOr name default
    if value < least then [.error s!"'{name}' must be >= {least}, got {value}."] else []

def wordError (options : Options) (name : String) (words : List String) : List Status :=
  match options.get? name with
  | some value =>
    if words.contains value then []
    else
      let valid := ", ".intercalate (sortTexts words)
      [.error s!"invalid {name} '{value}'. Supported: {valid}."]
  | none => []

/-! ## Directives -/

def checkQuery (d : Directive) : List Status :=
  let problem? : Option Query.Problem :=
    let format := Query.formatOf d.source
    let template := d.options.textOr "format" ""
    if d.source.isEmpty then some .noSource
    else if !Query.formats.contains format then some (.unsupported format)
    else if template != "" && d.options.textOr "path" "" == "" then some .templateWithoutPath
    else if template != "" && !contains "\x7bvalue\x7d".toList template.toList then
      some .templateWithoutValue
    else none
  problem?.toList.map fun p => .error p.message

def checkFilter (filter : String) : Except Crash (List Status) :=
  match Json.read filter with
  | .ok (.map _) => .ok []
  | .ok _ => .ok [.error "'filter' must be a mapping of column names to conditions"]
  | .error (.integer digits) => .error (.longInteger digits)
  | .error _ => .ok [.error "'filter' must be a valid YAML mapping"]

def checkTable (d : Directive) : Except Crash (List Status) := do
  if d.source.isEmpty then return [.error "'table' directive requires a source"]
  let ext := Query.formatOf d.source
  let format := if ["csv", "tsv", "json"].contains ext then []
    else [Status.error (Table.Problem.unsupported ext).message]
  let options := kindErrors d.options [("limit", .int), ("offset", .int), ("max_cell_length", .int)]
  let filter ← match d.options.get? "filter" with
    | some f => checkFilter f
    | none => .ok []
  return format ++ options ++ filter

def checkDigestSize (options : Options) : List Status :=
  leastError options "max_sentences" 1 3

def checkSynopsis (options : Options) : List Status :=
  checkDigestSize options ++ wordError options "algorithm" ["frequency", "luhn"] ++
    wordError options "language" Digest.languages ++ leastError options "sections" 0 0

def checkRecall (options : Options) : List Status :=
  (if (Embed.given? options "query").isSome then []
    else [Status.error "'query' is required for the recall directive."]) ++
    checkDigestSize options ++ wordError options "language" Digest.languages ++
    leastError options "sections" 0 0

def validate (p : Plugin) (d : Directive) : Except Crash (List Status) :=
  match p.behaviour with
  | .embed => .ok (Embed.check d)
  | .query => .ok (checkQuery d)
  | .table => checkTable d
  | .greeting => .ok []
  | .synopsis => .ok (checkSynopsis d.options)
  | .recollection => .ok (checkRecall d.options)
  | .contents =>
    .ok (kindErrors d.options [("start_fragment", .int), ("max_depth", .int), ("add_slugs", .bool)])
  | .custom _ => .ok []

def readSource (cwd : Path) (p : Plugin) (d : Directive) (content : String) :
    Except Crash (Option Data × List Status) := do
  match p.behaviour with
  | .query =>
    match Query.ask cwd d.source (d.options.textOr "path" "") (Embed.given? d.options "format") content with
    | .ok answer => return (some (.answer answer), [])
    | .error problem => return (none, [.error problem.message])
  | .table =>
    let ext := Query.formatOf d.source
    let select := d.options.textOr "select" ""
    let orderBy := d.options.textOr "order_by" ""
    match ← Table.readRows ext select orderBy content with
    | .ok rows => return (some (.rows rows), [])
    | .error problems => return (none, problems.map fun problem => .error problem.message)
  | .custom answers => return (answers.data.map .text, answers.problems)
  | _ => return (none, [])

end Transclude.Plugin
