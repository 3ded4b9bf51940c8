import Transclude.Crash
import Transclude.Status
import Transclude.Value.Toml.Reader
import Transclude.Value.Xml.Reader
import Transclude.Value.Yaml.Reader
import Transclude.Value.Yaml.Writer

/-!
# Queries

A query leads to a value by a dotted path of keys and positions; a part in double quotes or backticks may hold points.
A scalar is written inline, and anything else in a fence.
-/

namespace Transclude.Query

open Transclude.Text Transclude.Number

/-! ## Paths -/

def takeMarked? (mark : Char) (cs : List Char) : Option (List Char) :=
  match cs with
  | c :: rest =>
    let inside := rest.takeWhile (· != mark)
    if c == mark && !inside.isEmpty && inside.length < rest.length then some (c :: inside ++ [mark])
    else none
  | [] => none

def takePart (cs : List Char) : List Char :=
  (takeMarked? (Char.ofNat 96) cs).getD ((takeMarked? '"' cs).getD (cs.takeWhile (· != '.')))

/-- A part as it is looked up: without its first and last characters if it begins with a double quote. -/
def unmark (part : List Char) : String :=
  String.ofList (if part.head? = some '"' then part.dropLast.drop 1 else part)

def parts (cs : List Char) : Nat → List String
  | 0 => []
  | fuel + 1 =>
    match cs with
    | [] => []
    | '.' :: rest => parts rest fuel
    | cs =>
      let part := takePart cs
      unmark part :: parts (cs.drop part.length) fuel

def readPath (path : String) : Except Crash (List String) :=
  if path.isEmpty then .error (.broken "path must be a non-empty string")
  else .ok (parts path.toList (path.length + 1))

/-! ## Following a path -/

inductive Missing where
  | key (part : String)
  | position (index : Int) (length : Nat)
deriving Repr, DecidableEq

def Missing.message : Missing → String
  | .key part => quoted part
  | .position index length => s!"index {index} out of range (length {length})"

def step (v : Value) (part : String) : Except Missing Value :=
  match v.bare with
  | .map entries =>
    match Value.get? entries part with
    | some found => .ok found
    | none => .error (.key part)
  | .list items =>
    match readInt part with
    | .error _ => .error (.key part)
    | .ok index =>
      match if index < 0 then none else items[index.toNat]? with
      | some found => .ok found
      | none => .error (.position index items.length)
  | _ => .error (.key part)

def follow (v : Value) (path : List String) : Except Missing Value :=
  path.foldlM step v

/-! ## Writing what is found -/

def fenced (language content : String) : String :=
  let fence := String.ofList (List.replicate 3 (Char.ofNat 96))
  fence ++ language ++ "\n" ++ content ++ "\n" ++ fence

def valueText (v : Value) : String :=
  match v.bare with
  | .null => "null"
  | .bool b => if b then "true" else "false"
  | .text s => s
  | .int n => toString n
  | .float x => x.text
  | _ => fenced "yaml" (stripEnd (Yaml.write v))

inductive Answer where
  | document (language content : String)
  | value (v : Value) (language : String) (template : Option String)
deriving Repr

def Answer.render : Answer → Except Crash String
  | .document language content => .ok (fenced language (stripEnd content) ++ "\n")
  | .value v _ template =>
    let text := valueText v
    match template with
    | none => .ok (text ++ "\n")
    | some "" => .ok (text ++ "\n")
    | some t => do return (← (Template.fill [("value", text)] t).mapError .template) ++ "\n"

/-! ## Documents -/

def formatOf (source : String) : String :=
  String.ofList ((lowerChars (Path.ofText source).extension.toList).dropWhile (· == '.'))

def formats : List String := ["json", "yaml", "yml", "xml", "toml"]

def languageOf (format : String) : String :=
  if format = "yml" then "yaml" else format

inductive Problem where
  | noSource
  | unsupported (format : String)
  | templateWithoutPath
  | templateWithoutValue
  | malformed (format detail : String)
  | notFound (path source : String)
  | templateForCollection
deriving Repr, DecidableEq

def Problem.message : Problem → String
  | .noSource => "'query-path' directive requires a source."
  | .unsupported format =>
    s!"unsupported source format '{format}'. Supported: json, yaml, yml, xml, toml."
  | .templateWithoutPath => "'format' option requires a 'path' to be specified."
  | .templateWithoutValue => "'format' option must contain a '\x7bvalue\x7d' placeholder."
  | .malformed format detail => s!"invalid {format}: {detail}"
  | .notFound path source => s!"path '{path}' not found in '{source}'."
  | .templateForCollection =>
    "'format' option cannot be applied to a non-scalar (dict/list) value."

def readDocument (format content : String) : Except Problem Value :=
  if format = "json" then
    (Json.read content).mapError fun fault => .malformed "JSON" fault.message
  else if format = "yaml" || format = "yml" then
    (Yaml.read content).mapError fun fault => .malformed "YAML" fault.message
  else if format = "toml" then
    (Toml.read content).mapError fun fault => .malformed "TOML" fault.message
  else
    match Xml.read content with
    | some v => .ok v
    | none => .error (.malformed "XML" syntaxDetail)

def ask (cwd : Path) (source path : String) (template : Option String) (content : String) : Except Problem Answer := do
  let format := formatOf source
  let language := languageOf format
  let tree ← readDocument format content
  if path.isEmpty then return .document language content
  else
    match follow tree (parts path.toList (path.length + 1)) with
    | .error _ => .error (.notFound path (Path.shorten cwd source))
    | .ok v =>
      match template, v.bare with
      | some _, .map _ => .error .templateForCollection
      | some _, .list _ => .error .templateForCollection
      | _, _ => return .value v language template

end Transclude.Query
