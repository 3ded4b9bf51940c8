import Transclude.CommandLine
import Transclude.Compile
import Transclude.Config.Reading
import Transclude.Freshness
import Transclude.Render.Live
import Transclude.Render.Note

/-!
# Sessions

A session is one run of the command: the words are read (`Session.readCommand`), the configuration is completed, the
plugins are loaded, and the input is planned, compiled and written, compared or shown (`Session.proceed`). What it
reports makes its log, which `Renderer` turns into the two outputs.
-/

namespace Transclude.Session

open Transclude.Number Transclude.Render

def version : String := "1.0.1"

structure Invocation where
  words : List String
  stdin : String := ""
  stdinTerminal : Bool := false
  stdoutTerminal : Bool := false
  colorless : Bool := false
  entries : List Entry := Entry.standard

/-! ## The command -/

def exitIfErrors (errors : List Status) : Work Unit := do
  if !errors.isEmpty then
    Compile.presentErrors errors
    throw (.exit 1)

def readCommand (i : Invocation) : Work Config := do
  match CommandLine.request i.words with
  | .error .help =>
    Work.report (.out CommandLine.helpText)
    throw (.exit 0)
  | .error (.refused r) =>
    Work.report (.err CommandLine.usage)
    Work.errorLine (CommandLine.refusalLine CommandLine.spec.program r)
    throw (.exit 2)
  | .ok request =>
    let (config, errors) ← Work.lift (request.configure (← get).disk i.stdinTerminal i.stdin)
    exitIfErrors errors
    return { config with verbosity := min config.verbosity 2 }

def completeConfig (config : Config) : Work Config := do
  let disk := (← get).disk
  let path ← match config.configFile with
    | none => Work.lift (Config.discover disk config.input)
    | some "" => Work.lift (Config.discover disk config.input)
    | some path => pure (some path)
  match path with
  | none => return config
  | some path =>
    let (file, errors) ← Work.lift (Config.load disk path)
    exitIfErrors errors
    return config.merge file path

/-! ## Special requests -/

def makeConfig (folder : String) : Work Unit := do
  match ← Work.lift (Config.create (← get).disk folder) with
  | .error obstacle => exitIfErrors [obstacle.status]
  | .ok (disk, path) =>
    modify fun d => { d with disk }
    Work.report (.out s!"created {path}\n")

def listPlugins (config : Config) (entries : List Entry) : Work Unit := do
  let enabled ← Work.lift (Registry.enabledModules config.sequence)
  let (registry, rejections) := Registry.load {} entries (some enabled)
  let errors := rejections.map (·.status)
  Work.report (.out (registry.listing (errors ++ registry.diagnose config.sequence)))
  throw (.exit (if errors.any (·.isFailure) then 1 else 0))

/-! ## Plugins -/

def cannotStart : String :=
  "Embedm cannot start, please fix these issues first or disable the plugins in 'embedm-config.yaml'"

def presentLoadErrors (errors : List Status) : Work Unit := do
  let fatal := errors.filter (·.level == .fatal)
  if fatal.isEmpty then Compile.presentErrors errors
  else
    Compile.presentErrors (fatal ++ [.error cannotStart])
    throw (.exit 1)

def pluginsOf (config : Config) (entries : List Entry) : Except Crash (Registry × List Status) := do
  let enabled ← Registry.enabledModules config.sequence
  let (registry, rejections) := Registry.load {} entries (some enabled)
  let problems ← registry.checkSettings config.verbosity config.settings
  return (registry, rejections.map (·.status) ++ problems)

def cacheOf (config : Config) : Except Crash Cache :=
  Cache.make config.maxFile config.maxMemory ["./**"] false

def loadPlugins (config : Config) (entries : List Entry) : Work Registry := do
  let (registry, errors) ← Work.lift (pluginsOf config entries)
  presentLoadErrors errors
  let warnings := registry.diagnose config.sequence
  Work.emit (.pluginsLoaded registry.discovered.length registry.plugins.length
    (errors.map (·.text)) (warnings.map (·.text)))
  return registry

/-! ## Outputs -/

def targetLabel (cwd : Path) (config : Config) : String :=
  let place := fun (s : String) => (Path.resolve cwd (.ofText s)).text
  match config.outputFile.filter (· != ""), config.outputFolder.filter (· != "") with
  | some s, _ => place s
  | none, some s => place s
  | none, none => "stdout"

def count (s : Summary) (root : Node) (wrote : Bool) (fresh : Option Freshness) : Summary :=
  let s := match fresh with
    | some .upToDate => { s with verifying := true, upToDate := s.upToDate + 1 }
    | some _ => { s with verifying := true, stale := s.stale + 1 }
    | none => if wrote then { s with written := s.written + 1 } else s
  if root.hasFailure then { s with errors := s.errors + 1 }
  else if root.hasLevel .warning then { s with warnings := s.warnings + 1 }
  else { s with ok := s.ok + 1 }

def writeFile (path text : String) : Work Unit := do
  let disk ← Work.lift (((← get).disk.writeText path text).mapError .disk)
  modify fun d => { d with disk }

def makeFolders (p : Path) : Work Unit := do
  let disk ← Work.lift (((← get).disk.makeFolders p).mapError .disk)
  modify fun d => { d with disk }

def compare (config : Config) (result path : String) : Work Freshness := do
  let fresh ← Work.lift (Freshness.check (← get).disk config.lineEndings result path)
  Work.errorLine s!"[{fresh.label}] {path}"
  return fresh

def compileSafely (config : Config) (registry : Registry) (compiledDir : String) (root : Node) :
    Work (Except String String) := do
  let desk ← get
  let (r, after) := (Compile.compilePlan config registry compiledDir root).run desk
  set after
  match r with
  | .ok text => return .ok text
  | .error (.exit code) => throw (.exit code)
  | .error c => return .error c.message

/-! ## Single inputs -/

def noTime : Binary64 := .zero false

def failed : String := "compilation failed"

def writeResult (config : Config) (result : String) : Work Unit := do
  let content := Target.endLines config.lineEndings result
  match config.outputFile with
  | none => Work.report (.out content)
  | some "" => Work.report (.out content)
  | some path => if config.dryRun then Work.report (.out content) else writeFile path content

def processSingle (config : Config) (registry : Registry) (root : Node) (s : Summary) : Work Summary := do
  let cwd := (← get).disk.folder
  let source := root.directive.source
  Work.emit (.fileStarted source root.count 0 1)
  match ← compileSafely config registry (Target.folderOfFile cwd config.outputFile) root with
  | .error message =>
    Work.emit (.fileError source message noTime 0 1)
    return count s root false none
  | .ok result =>
    let output := config.outputFile.filter (· != "")
    match config.verify && result != "", output with
    | true, some file =>
      let path := (Path.resolve cwd (.ofText file)).text
      let fresh ← compare config result path
      Work.emit (.fileCompleted source path noTime 0 1)
      return count s root false (some fresh)
    | _, _ =>
      if result == "" then
        Work.emit (.fileError source failed noTime 0 1)
        return count s root false none
      else
        writeResult config result
        Work.emit (.fileCompleted source (output.getD "stdout") noTime 0 1)
        return count s root true none

/-! ## Folders -/

def goesOn : Work Bool := do
  if (← get).acceptAll then return true
  else
    match ← Work.ask with
    | .exit => throw (.exit 1)
    | .no => return false
    | .yes => return true
    | .always =>
      modify fun d => { d with acceptAll := true }
      return true

/-- The plans of files from the one with an index on, in order. A file that an earlier one embeds is not
planned, and planning may end after a plan with errors; `embedded` are the files that are embedded. -/
def planFiles (config : Config) (registry : Registry) (total : Nat) (embedded : List String)
    (index : Nat) : List String → Work (List (String × Node))
  | [] => return []
  | path :: rest => do
    let cwd := (← get).disk.folder
    if embedded.contains (Path.resolve cwd (.ofText path)).text then
      planFiles config registry total embedded (index + 1) rest
    else
      let root ← Plan.planFile config registry path
      let embedded := embedded ++ (← Work.lift (root.embedded cwd config.rootKind))
      if root.hasFailure then
        Work.emit (.filePlanError path index total root.firstFailure)
        if ← goesOn then
          return (path, root) :: (← planFiles config registry total embedded (index + 1) rest)
        else return [(path, root)]
      else
        Work.emit (.filePlanned path index total)
        return (path, root) :: (← planFiles config registry total embedded (index + 1) rest)

def planAll (config : Config) (registry : Registry) (files : List String) : Work (List (String × Node)) := do
  Work.emit (.planningStarted files.length)
  let plans ← planFiles config registry files.length [] 0 files
  Work.emit (.planningComplete plans.length (plans.countP (·.2.hasFailure)))
  return plans

def targets (cwd : Path) (config : Config) (plans : List (String × Node)) : Except Crash (List (String × Node)) := do
  let embedded ← plans.mapM fun p => p.2.embedded cwd config.rootKind
  return plans.filter fun p => !embedded.flatten.contains (Path.resolve cwd (.ofText p.1)).text

def outputPath (cwd base : Path) (folder input : String) : Except Crash Path :=
  match Target.pathBelow? cwd base folder input with
  | some p => .ok p
  | none => .error (.notBelow (Path.resolve cwd (.ofText input)).text base.text)

def writeBelow (config : Config) (base : Path) (input result : String) : Work (Option String) := do
  let cwd := (← get).disk.folder
  let content := Target.endLines config.lineEndings result
  match config.dryRun, config.outputFolder.filter (· != "") with
  | false, some folder =>
    let path ← Work.lift (outputPath cwd base folder input)
    makeFolders path.parent
    writeFile path.text content
    return some (Path.resolve cwd path).text
  | _, _ =>
    Work.report (.out content)
    return none

def deliver (config : Config) (base : Path) (index total : Nat) (input : String) (root : Node)
    (result : String) (s : Summary) : Work Summary := do
  let cwd := (← get).disk.folder
  match config.verify, config.outputFolder.filter (· != "") with
  | true, some folder =>
    let path ← Work.lift (outputPath cwd base folder input)
    let place := (Path.resolve cwd path).text
    let fresh ← if result == "" then pure none else some <$> compare config result place
    Work.emit (.fileCompleted input place noTime index total)
    return count s root false fresh
  | _, _ =>
    if result == "" then
      Work.emit (.fileError input failed noTime index total)
      return count s root false none
    else
      let path ← writeBelow config base input result
      Work.emit (.fileCompleted input (path.getD "stdout") noTime index total)
      return count s root true none

def compileFiles (config : Config) (registry : Registry) (base : Path) (total : Nat) (index : Nat)
    (s : Summary) : List (String × Node) → Work Summary
  | [] => return s
  | (input, root) :: rest => do
    let cwd := (← get).disk.folder
    Work.emit (.fileStarted input root.count index total)
    let compiledDir := Target.folderBelow cwd base config.outputFolder input
    let s ← match ← compileSafely config registry compiledDir root with
      | .error message => do
        Work.emit (.fileError input message noTime index total)
        pure (count s root false none)
      | .ok result => deliver config base index total input root result s
    compileFiles config registry base total (index + 1) s rest

def processFolder (config : Config) (registry : Registry) (s : Summary) : Work Summary := do
  let disk := (← get).disk
  let files ← Work.lift ((disk.expand config.input "*.md").mapError .pattern)
  if files.isEmpty then
    Work.errorLine s!"error: no .md files found in '{config.input}'"
    return s
  else
    let base := disk.baseFolder config.input
    let plans ← planAll config registry files
    let chosen ← Work.lift (targets disk.folder config plans)
    Work.emit (.compilationStarted chosen.length)
    let s ← compileFiles config registry base chosen.length 0 s chosen
    Work.emit (.compilationComplete s.ok s.errors)
    return s

/-! ## The whole session -/

def processInput (config : Config) (registry : Registry) (s : Summary) : Work Summary := do
  match config.mode with
  | .file => processSingle config registry (← Plan.planFile config registry config.input) s
  | .directory => processFolder config registry s
  | .stdin => processSingle config registry (← Plan.planText config registry config.input) s

def proceed (i : Invocation) (config : Config) : Work Unit := do
  if let some folder := config.initPath then makeConfig folder
  else
    let config ← completeConfig config
    let cwd := (← get).disk.folder
    let label := targetLabel cwd config
    let source := (config.configFile.filter (· != "")).getD "DEFAULT"
    Work.emit (.sessionStarted version source config.mode.name label)
    if config.listPlugins then listPlugins config i.entries
    else
      let registry ← loadPlugins config i.entries
      let cache ← Work.lift (cacheOf config)
      modify fun d => { d with cache, acceptAll := config.acceptAll }
      let summary ← processInput config registry { target := label }
      Work.emit (.sessionComplete summary)
      if summary.errors > 0 || (config.verify && summary.stale > 0) then throw (.exit 1)

/-! ## Rendering -/

inductive Renderer where
  | stream (view : View)
  | live (state : Live)

/-- How the events of a session are shown: live on a terminal with colors, as plain lines otherwise. -/
def Renderer.of (cwd : Path) (i : Invocation) (config : Config) : Renderer :=
  let color := !config.noColor && !i.colorless
  let view : View := { folder := cwd, verbosity := config.verbosity, color }
  if i.stdoutTerminal && color then .live { view } else .stream { view with color := false }

def Renderer.step (r : Renderer) (e : Event) : Renderer × String :=
  match r with
  | .stream view => (.stream view, String.join ((view.stream e).map (· ++ "\n")))
  | .live state =>
    let (state, pieces) := state.step e
    (.live state, String.join (pieces.map (·.text)))

def Renderer.errorText (r : Renderer) : List Output → String
  | [] => ""
  | .out _ :: rest => r.errorText rest
  | .err text :: rest => text ++ r.errorText rest
  | .event e :: rest =>
    let (r, text) := r.step e
    text ++ r.errorText rest

def outText (log : List Output) : String :=
  String.join (log.map fun o => match o with
    | .out text => text
    | _ => "")

structure Outcome where
  exit : Except Crash Nat
  stdout : String
  stderr : String
  disk : Disk

def exitOf (r : Except Crash Unit) : Except Crash Nat :=
  match r with
  | .ok _ => .ok 0
  | .error (.exit code) => .ok code
  | .error c => .error c

def desk (d : Disk) (i : Invocation) : Desk where
  disk := d
  cache := { maxFile := .int 0, limit := 0, allowed := [], overwrites := false, entries := [], memory := 0 }
  answers := i.stdin.toList
  terminal := i.stdinTerminal

def run (d : Disk) (i : Invocation) : Outcome :=
  let plain : Renderer := .stream { folder := d.folder, verbosity := 0 }
  let (command, opened) := (readCommand i).run (desk d i)
  let (r, ended, renderer) := match command with
    | .error c => (Except.error c, opened, plain)
    | .ok config =>
      let (r, ended) := (proceed i config).run opened
      (r, ended, Renderer.of d.folder i config)
  { exit := exitOf r, stdout := outText ended.log, stderr := renderer.errorText ended.log
    disk := ended.disk }

end Transclude.Session
