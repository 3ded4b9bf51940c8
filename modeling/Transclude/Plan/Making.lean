import Transclude.Config.Basic
import Transclude.Directive.Reading
import Transclude.Plan.Node
import Transclude.Plugin.Check
import Transclude.Registry
import Transclude.Work

/-!
# Making plans

The plan of a document has a node for each directive in it that has a source or a plugin. Sources are planned in turn,
unless they are planned already further up or lie too deep. What is wrong is kept as statuses of the nodes.
-/

namespace Transclude.Plan

structure Setting where
  registry : Registry
  maxRecursion : Amount

abbrev Placed := Nat × Directive

/-! ## Directives of a document -/

def modernizeAll (r : Registry) : List Fragment → List Fragment × List Status
  | [] => ([], [])
  | .directive d :: rest =>
    let (d, warnings) := r.modernize d
    let (rest, more) := modernizeAll r rest
    (.directive d :: rest, warnings ++ more)
  | f :: rest =>
    let (rest, warnings) := modernizeAll r rest
    (f :: rest, warnings)

def directivesFrom (place : Nat) : List Fragment → List Placed
  | [] => []
  | .directive d :: rest => (place, d) :: directivesFrom (place + 1) rest
  | _ :: rest => directivesFrom (place + 1) rest

def noPlugin (kind : String) : String :=
  s!"no plugin registered for directive type '{kind}'"

def checkAll (r : Registry) (directives : List Placed) : Except Crash (List Status) := do
  let found ← directives.mapM fun (_, d) =>
    match r.find? d.kind with
    | none => .ok [Status.error (noPlugin d.kind)]
    | some p => p.validate d
  return found.flatten

/-! ## Sources -/

def sourceError? (s : Setting) (above : List String) (room : Nat) (d : Directive) : Work (Option Status) := do
  let desk ← get
  let shown := Path.shorten desk.disk.folder d.source
  if above.contains d.source then return some (.error s!"circular dependency detected: '{shown}'")
  else if room = 0 then
    return some (.error s!"max recursion depth ({s.maxRecursion.text}) reached")
  else return (← Work.lift (desk.cache.validate desk.disk d.source)).head?

def planSourceless (r : Registry) (place : Nat) (d : Directive) : Work (Option Node) := do
  match r.find? d.kind with
  | none => return none
  | some p =>
    let (data, errors) ← Work.lift (p.readSource (← get).disk.folder d "")
    if errors.isEmpty then return some { directive := d, place, data }
    else return some (.failed d place errors)

def success : Status :=
  { level := .ok, text := "plan created successfully" }

def planDocument (s : Setting) (above : List String) (room : Nat) (child : Placed → Work Node)
    (place : Nat) (d : Directive) (content : String) (data : Option Data) : Work Node := do
  let cwd := (← get).disk.folder
  let baseDir := if d.source.isEmpty then "" else (Path.ofText d.source).parent.text
  let (fragments, refusals) ← Work.lift (Fragment.ofText cwd baseDir content.toList)
  let (fragments, warnings) := modernizeAll s.registry fragments
  let directives := directivesFrom 0 fragments
  let problems ← Work.lift (checkAll s.registry directives)
  let status := refusals.map (·.status) ++ warnings ++ problems
  let (sourced, sourceless) := directives.partition fun x => !x.2.source.isEmpty
  let checked ← sourced.mapM fun x => return (x, ← sourceError? s above room x.2)
  let bare ← sourceless.filterMapM fun x => planSourceless s.registry x.1 x.2
  let built ← (checked.filter (·.2.isNone)).mapM fun x => child x.1
  let broken := checked.filterMap fun x => x.2.map fun e => Node.failed x.1.2 x.1.1 [e]
  return {
    directive := d, place, data, document := some fragments
    status := if status.isEmpty then [success] else status
    children := built ++ broken ++ bare }

/-- The node of a directive whose source has been loaded; `room` more levels may be below it. -/
def planLoaded (s : Setting) : Nat → List String → Placed → String → Work Node
  | room, above, (place, d), content => do
    let (data, errors) ← match s.registry.find? d.kind with
      | none => pure (none, [])
      | some p => Work.lift (p.readSource (← get).disk.folder d content)
    if !errors.isEmpty then return .failed d place errors
    match room with
    | 0 => planDocument s above 0 (fun x => pure (.failed x.2 x.1 [])) place d content data
    | room + 1 =>
      let child := fun (x : Placed) => do
        match ← Work.readFile x.2.source with
        | (some text, []) => planLoaded s room (x.2.source :: above) x text
        | (_, errors) => return .failed x.2 x.1 errors
      planDocument s above (room + 1) child place d content data

/-! ## Roots -/

def settingOf (config : Config) (registry : Registry) : Setting :=
  { registry, maxRecursion := config.maxRecursion }

def planText (config : Config) (registry : Registry) (content : String) : Work Node := do
  let cwd := (← get).disk.folder
  let source := (cwd.join { root := "", parts := ["<stdin>"] }).text
  let d : Directive := { kind := config.rootKind, source, options := [], baseDir := "" }
  planLoaded (settingOf config registry) config.maxRecursion.value.toNat [] (0, d) content

def planFile (config : Config) (registry : Registry) (path : String) : Work Node := do
  let cwd := (← get).disk.folder
  let source := (← Work.lift (Path.follow cwd path)).text
  let d : Directive := { kind := config.rootKind, source, options := [], baseDir := "" }
  match ← Work.readFile source with
  | (some text, []) =>
    planLoaded (settingOf config registry) config.maxRecursion.value.toNat [source] (0, d) text
  | (_, errors) => return .failed d 0 errors

end Transclude.Plan
