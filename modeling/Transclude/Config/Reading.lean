import Transclude.Config.Basic
import Transclude.Crash
import Transclude.Status
import Transclude.Value.Yaml.Reader

/-!
# Configuration files

A configuration file is a YAML mapping of the fields that `Config.Field` lists. A key that is no field is only warned
of; any other problem leaves the default configuration.
-/

namespace Transclude.Config

def fileName : String := "embedm-config.yaml"

/-! ## Fields -/

inductive Form where
  | amount
  | text
  | list
  | map
deriving Repr, BEq, DecidableEq

def Form.name : Form → String
  | .amount => "int"
  | .text => "str"
  | .list => "list"
  | .map => "dict"

def Form.accepts : Form → Value → Bool
  | .amount, .int _ => true
  | .amount, .bool _ => true
  | .text, .text _ => true
  | .list, .list _ => true
  | .map, .map _ => true
  | _, _ => false

inductive Field where
  | maxFile
  | maxRecursion
  | maxMemory
  | maxEmbed
  | rootKind
  | sequence
  | settings
  | lineEndings
deriving Repr, BEq, DecidableEq

def Field.ofKey? : Value → Option Field
  | .text "max_file_size" => some .maxFile
  | .text "max_recursion" => some .maxRecursion
  | .text "max_memory" => some .maxMemory
  | .text "max_embed_size" => some .maxEmbed
  | .text "root_directive_type" => some .rootKind
  | .text "plugin_sequence" => some .sequence
  | .text "plugin_configuration" => some .settings
  | .text "line_endings" => some .lineEndings
  | _ => none

def Field.form : Field → Form
  | .rootKind => .text
  | .lineEndings => .text
  | .sequence => .list
  | .settings => .map
  | _ => .amount

def amountOf : Value → Amount
  | .int n => .int n
  | .bool b => .truth b
  | _ => .int 0

def set (c : Config) (f : Field) (v : Value) : Config :=
  match f, v with
  | .maxFile, v => { c with maxFile := amountOf v }
  | .maxRecursion, v => { c with maxRecursion := amountOf v }
  | .maxMemory, v => { c with maxMemory := amountOf v }
  | .maxEmbed, v => { c with maxEmbed := amountOf v }
  | .rootKind, .text s => { c with rootKind := s }
  | .sequence, .list vs => { c with sequence := vs }
  | .settings, .map es => { c with settings := es }
  | .lineEndings, .text s => { c with lineEndings := s }
  | _, _ => c

/-! ## Problems -/

inductive Problem where
  | noFile (path : String)
  | malformed (path : String)
  | notMapping (path : String)
  | unknownKey (key : String)
  | wrongForm (key : String) (form : Form) (got : String)
  | settingsForm (module got : String)
  | lineEndings
  | maxFile (got : Amount)
  | maxRecursion (got : Amount)
  | maxEmbed (got : Amount)
  | memory (all one : Amount)
deriving Repr, BEq, DecidableEq

def Problem.message : Problem → String
  | .noFile path => s!"config file '{path}' not found"
  | .malformed path => s!"failed to parse '{path}': {syntaxDetail}"
  | .notMapping path => s!"config file '{path}' must be a YAML mapping"
  | .unknownKey key => s!"unknown config key '{key}'"
  | .wrongForm key form got => s!"config key '{key}' must be {form.name}, got {got}"
  | .settingsForm module got => s!"plugin_configuration['{module}'] must be a mapping, got {got}"
  | .lineEndings => "config key 'line_endings' must be 'lf' or 'crlf'"
  | .maxFile got => s!"'max_file_size' must be >= 1, got {got.text}"
  | .maxRecursion got => s!"'max_recursion' must be >= 1, got {got.text}"
  | .maxEmbed got => s!"'max_embed_size' must be >= 0, got {got.text}"
  | .memory all one => s!"'max_memory' ({all.text}) must be greater than 'max_file_size' ({one.text})"

def Problem.status (p : Problem) : Status :=
  match p with
  | .unknownKey _ => .warning p.message
  | p => .error p.message

/-! ## Reading -/

def readEntry (at_ : List (Field × Value) × List Problem) (e : Value × Value) : List (Field × Value) × List Problem :=
  match Field.ofKey? e.1 with
  | none => (at_.1, at_.2 ++ [.unknownKey e.1.asText])
  | some f =>
    if f.form.accepts e.2 then (at_.1 ++ [(f, e.2)], at_.2)
    else (at_.1, at_.2 ++ [.wrongForm e.1.asText f.form e.2.kind])

def settingsProblem? (e : Value × Value) : Option Problem :=
  match e.2 with
  | .map _ => none
  | v => some (.settingsForm e.1.asText v.kind)

def fieldProblems (e : Field × Value) : List Problem :=
  match e with
  | (.settings, .map es) => es.filterMap settingsProblem?
  | (.lineEndings, .text s) => if s == "lf" || s == "crlf" then [] else [.lineEndings]
  | _ => []

def rangeProblem? (c : Config) : Option Problem :=
  if c.maxFile.value < 1 then some (.maxFile c.maxFile)
  else if c.maxRecursion.value < 1 then some (.maxRecursion c.maxRecursion)
  else if c.maxEmbed.value < 0 then some (.maxEmbed c.maxEmbed)
  else if c.maxMemory.value ≤ c.maxFile.value then some (.memory c.maxMemory c.maxFile)
  else none

def ofEntries (entries : List (Value × Value)) : Config × List Status :=
  let (fields, problems) := entries.foldl readEntry ([], [])
  let ofField := fun (f : Field) => (fields.filter (·.1 == f)).flatMap fieldProblems
  let statuses := (problems ++ ofField .settings ++ ofField .lineEndings).map (·.status)
  if statuses.any (·.level == .error) then ({}, statuses)
  else
    let c := fields.foldl (fun c e => c.set e.1 e.2) ({} : Config)
    match rangeProblem? c with
    | some p => ({}, [p.status])
    | none => (c, statuses)

def load (d : Disk) (path : String) : Except Crash (Config × List Status) := do
  let name := (Path.ofText path).text
  match ← (d.probe name).mapError .disk with
  | some (.file _) =>
    let text ← (d.text name).mapError .disk
    match Yaml.read text with
    | .error .malformed => return ({}, [(Problem.malformed path).status])
    | .error fault => .error (.yaml fault)
    | .ok v =>
      match v.plain with
      | .null => return ({}, [])
      | .map entries => return ofEntries entries
      | _ => return ({}, [(Problem.notMapping path).status])
  | _ => return ({}, [(Problem.noFile path).status])

/-! ## Making and finding -/

def defaultText : String :=
  let c : Config := {}
  "# embedm configuration file\n" ++
  "# see https://github.com/embedm/embedm for documentation\n\n" ++
  s!"# max file size in bytes\nmax_file_size: {c.maxFile.text}\n\n" ++
  s!"# max recursion depth for nested embeds\nmax_recursion: {c.maxRecursion.text}\n\n" ++
  s!"# max memory for file cache in bytes\nmax_memory: {c.maxMemory.text}\n\n" ++
  s!"# max embed size in bytes\nmax_embed_size: {c.maxEmbed.text}\n\n" ++
  s!"# directive type used for root plan nodes\nroot_directive_type: {c.rootKind}\n\n" ++
  "# plugin load order\nplugin_sequence:\n" ++
  String.join (defaultSequence.map fun m => s!"  - {m}\n")

inductive Obstacle where
  | noFolder (folder : String)
  | exists (path : String)
deriving Repr, BEq, DecidableEq

def Obstacle.status : Obstacle → Status
  | .noFolder folder => .error s!"directory '{folder}' does not exist"
  | .exists path => .error s!"'{path}' already exists"

def create (d : Disk) (folder : String) : Except Crash (Except Obstacle (Disk × String)) := do
  let base := Path.ofText folder
  match ← (d.probe base.text).mapError .disk with
  | some .folder =>
    let path := (base.join (.ofText fileName)).text
    match ← (d.probe path).mapError .disk with
    | some _ => return .error (.exists path)
    | none => return .ok (← (d.writeText path defaultText).mapError .disk, path)
  | _ => return .error (.noFolder folder)

def discover (d : Disk) (input : String) : Except Crash (Option String) := do
  if Path.hasNull input then .error .nullInPath
  let path := ((Path.resolve d.folder (.ofText input)).parent.join (.ofText fileName)).text
  match ← (d.probe path).mapError .disk with
  | some (.file _) => return some path
  | _ => return none

end Transclude.Config
