import Transclude.Plugin.Basic

/-!
# The registry of plugins

Plugins are offered by entries, of which the first one of each module counts. They are found by the kind of directives
that they handle, in its present or an older name.
-/

namespace Transclude

open Transclude.Text

/-! ## Entries -/

inductive Offer where
  | plugin (p : Plugin)
  | failing (reason : String)
  | incomplete (missing : List String)
deriving Repr

structure Entry where
  name : String
  module : String
  offer : Offer
deriving Repr

def Entry.standard : List Entry :=
  Plugin.Standard.all.map fun (name, p) => { name, module := p.module, offer := .plugin p }

/-! ## The table -/

structure Registry where
  plugins : List (String × Plugin) := []
  byKind : List (String × Plugin) := []
  byOldKind : List (String × Plugin) := []
  discovered : List (String × String) := []
  skipped : List (String × String) := []
deriving Repr

namespace Registry

def assign {α : Type} (table : List (String × α)) (key : String) (value : α) : List (String × α) :=
  if table.any (·.1 == key) then table.map fun e => if e.1 == key then (key, value) else e
  else table ++ [(key, value)]

def remove {α : Type} (table : List (String × α)) (key : String) : List (String × α) :=
  table.filter (·.1 != key)

def put (r : Registry) (name : String) (p : Plugin) : Registry :=
  { r with
    plugins := assign r.plugins name p
    byKind := assign r.byKind p.kind p
    byOldKind := p.oldKinds.foldl (fun t old => assign t old p) r.byOldKind }

/-- The registry without the plugin of a name, its kind and its older kinds; none if there is none. -/
def erase? (r : Registry) (name : String) : Option Registry :=
  (r.plugins.lookup name).map fun p =>
    { r with
      plugins := remove r.plugins name
      byKind := remove r.byKind p.kind
      byOldKind := p.oldKinds.foldl remove r.byOldKind }

def get? (r : Registry) (name : String) : Option Plugin :=
  r.plugins.lookup name

def find? (r : Registry) (kind : String) : Option Plugin :=
  r.byKind.lookup kind

def resolve (r : Registry) (kind : String) : String × Bool :=
  if (r.find? kind).isSome then (kind, false)
  else
    match r.byOldKind.lookup kind with
    | some p => (p.kind, true)
    | none => (kind, false)

/-! ## Loading -/

inductive Rejection where
  | failed (name reason : String)
  | incomplete (name : String) (missing : List String)
  | duplicate (name kind existing : String)
deriving Repr, DecidableEq

def Rejection.status : Rejection → Status
  | .failed name reason => .error s!"failed to load plugin '{name}': {reason}"
  | .incomplete name missing =>
    let attributes := ", ".intercalate (missing.map fun a => s!"'{a}'")
    { level := .fatal, text := s!"plugin '{name}' is missing required attribute(s): {attributes}" }
  | .duplicate name kind existing =>
    .error s!"plugin '{name}' claims directive_type '{kind}' already registered by '{existing}'"

def register (r : Registry) (e : Entry) : Registry × List Rejection :=
  match e.offer with
  | .failing reason => (r, [.failed e.name reason])
  | .incomplete missing => (r, [.incomplete e.name missing])
  | .plugin p =>
    match r.find? p.kind with
    | some other => (r, [.duplicate p.name p.kind other.name])
    | none => (r.put p.name p, [])

def firstOfModules (seen : List String) : List Entry → List Entry
  | [] => []
  | e :: rest =>
    if seen.contains e.module then firstOfModules seen rest
    else e :: firstOfModules (e.module :: seen) rest

def loadOne (enabled : Option (List String)) (at_ : Registry × List Rejection) (e : Entry) :
    Registry × List Rejection :=
  let (r, rejections) := at_
  let r := { r with discovered := r.discovered ++ [(e.name, e.module)] }
  if enabled.any (!·.contains e.module) then
    ({ r with skipped := r.skipped ++ [(e.name, e.module)] }, rejections)
  else
    let (r, more) := r.register e
    (r, rejections ++ more)

def load (r : Registry) (entries : List Entry) (enabled : Option (List String)) : Registry × List Rejection :=
  (firstOfModules [] entries).foldl (loadOne enabled) ({ r with discovered := [], skipped := [] }, [])

/-! ## Present names -/

def oldKindWarning (old new : String) : Status :=
  .warning s!"directive type '{old}' is deprecated, use '{new}' instead"

/-- A directive with its kind and its options in their present names, and a warning for each older one. -/
def modernize (r : Registry) (d : Directive) : Directive × List Status :=
  let (kind, isOld) := r.resolve d.kind
  let warnings := if isOld then [oldKindWarning d.kind kind] else []
  let d := { d with kind }
  match r.find? kind with
  | some p =>
    let (d, more) := p.renameOptions d
    (d, warnings ++ more)
  | none => (d, warnings)

/-! ## Sequences -/

def addModule (r : Registry) (kinds : List String) (module : Value) : List String :=
  match r.plugins.find? fun e => module.bare == .text e.2.module && !kinds.contains e.2.kind with
  | some e => kinds ++ [e.2.kind]
  | none => kinds

/-- The kinds of directives in the order of some modules; the kinds of other modules come after them. -/
def sequence (r : Registry) (modules : List Value) : List String :=
  let first := modules.foldl r.addModule []
  r.plugins.foldl (fun kinds e => if kinds.contains e.2.kind then kinds else kinds ++ [e.2.kind]) first

def diagnose (r : Registry) (modules : List Value) : List Status :=
  (modules.filter fun m => !r.discovered.any fun e => m.bare == .text e.2).map fun m =>
    .warning s!"plugin_sequence entry '{m.asText}' has no matching installed entry point — plugin will not load"

def moduleName? (m : Value) : Except Crash (Option String) :=
  match m.bare with
  | .text s => .ok (some s)
  | .list _ => .error (.notMember "list")
  | .map _ => .error (.notMember "dict")
  | .set _ => .error (.notMember "set")
  | _ => .ok none

def enabledModules (modules : List Value) : Except Crash (List String) := do
  return (← modules.mapM moduleName?).filterMap id

def listing (r : Registry) (issues : List Status) : String :=
  let plugins := r.plugins.map (·.2)
  let width := fun (f : Plugin → String) => (plugins.map fun p => (f p).length).foldl max 0
  let pad := fun (f : Plugin → String) (p : Plugin) => String.ofList (padEnd (width f) (f p).toList)
  let lines := s!"plugins ({plugins.length} loaded):" ::
    plugins.map fun p => s!"  {pad Plugin.kind p}  {pad Plugin.name p}  {p.module}"
  let skipped := if r.skipped.isEmpty then [] else
    ["", s!"skipped ({r.skipped.length} not in plugin_sequence):"] ++
      r.skipped.map fun e => s!"  {e.1}  ({e.2})"
  let found := if issues.isEmpty then [] else
    ["", s!"issues ({issues.length}):"] ++
      issues.map fun s => (if s.isFailure then "  error: " else "  warning: ") ++ s.text
  String.join ((lines ++ skipped ++ found).map (· ++ "\n"))

/-! ## Settings -/

def settingsOf (p : Plugin) : List String :=
  match p.behaviour with
  | .embed => ["region_start", "region_end"]
  | _ => []

def holdsTag : Value → Except Crash Bool
  | .text s => .ok (contains "\x7btag\x7d".toList s.toList)
  | .list items => .ok (items.any fun v => v.bare == .text "\x7btag\x7d")
  | .set items => .ok (items.any fun v => v.bare == .text "\x7btag\x7d")
  | .map entries => .ok (Value.get? entries "\x7btag\x7d").isSome
  | .shared _ v => holdsTag v
  | .pair a b => .ok (a.bare == .text "\x7btag\x7d" || b.bare == .text "\x7btag\x7d")
  | .bytes _ => .error (.broken "a bytes-like object is required, not 'str'")
  | v => .error (.notSearchable v.kind)

def checkMarkers (settings : List (Value × Value)) : Except Crash (List Status) := do
  let found ← ["region_start", "region_end"].mapM fun key => do
    match Value.get? settings key with
    | none => return []
    | some v =>
      if v.bare == .null then return []
      else if ← holdsTag v then return []
      else return [Status.error ("file_plugin config '" ++ key ++ "' must contain '\x7btag\x7d'")]
  return found.flatten

def checkSetting (verbosity : Int) (module : String) (p : Plugin) (e : Value × Value) : List Status :=
  let key := e.1.asText
  if (settingsOf p).any fun name => e.1.bare == .text name then
    match e.2.bare with
    | .text _ => []
    | v => [.error s!"plugin_configuration['{module}']['{key}'] must be str, got {v.kind}"]
  else if verbosity ≥ 3 then
    [.warning s!"plugin_configuration['{module}']: unknown key '{key}'"]
  else []

def checkSettings (r : Registry) (verbosity : Int) (settings : List (Value × Value)) : Except Crash (List Status) := do
  let found ← settings.mapM fun e => do
    let module := e.1.asText
    match r.plugins.find? fun x => e.1.bare == .text x.2.module with
    | none => return [Status.warning s!"plugin_configuration: unknown plugin module '{module}'"]
    | some (_, p) =>
      match e.2.bare with
      | .map own =>
        let keys := own.flatMap (checkSetting verbosity module p)
        let more ← match p.behaviour with
          | .embed => checkMarkers own
          | _ => .ok []
        return keys ++ more
      | v => .error (.noAttribute v.kind "items")
  return found.flatten

end Registry

end Transclude
