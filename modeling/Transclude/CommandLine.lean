import Transclude.Arguments
import Transclude.Config.Basic
import Transclude.Crash
import Transclude.Status

/-!
# The command line

The words after the command say what a run works on and where its results go. Requests that exclude each other are
refused; without an input the run reads its standard input.
-/

namespace Transclude.CommandLine

open Transclude.Arguments

inductive Key where
  | help
  | outputFile
  | outputFolder
  | config
  | acceptAll
  | dryRun
  | verify
  | verbosity
  | init
  | listPlugins
  | noColor
deriving Repr, BEq, DecidableEq

def spec : Spec Key where
  program := "embedm"
  help := { key := .help, names := ["-h", "--help"] }
  switches := [
    { key := .outputFile, names := ["-o", "--output-file"], arity := .one },
    { key := .outputFolder, names := ["-d", "--output-dir"], arity := .one },
    { key := .config, names := ["-c", "--config"], arity := .one },
    { key := .acceptAll, names := ["-A", "--accept-all"] },
    { key := .dryRun, names := ["-n", "--dry-run"] },
    { key := .verify, names := ["--verify"] },
    { key := .verbosity, names := ["-v", "--verbose"], arity := .optional, isNumber := true },
    { key := .init, names := ["--init"], arity := .optional },
    { key := .listPlugins, names := ["-p", "--plugin-list"] },
    { key := .noColor, names := ["--no-color"] }]

def usage : String :=
  "usage: embedm [-h] [-o OUTPUT_FILE] [-d OUTPUT_DIR] [-c CONFIG] [-A] [-n]\n" ++
  "              [--verify] [-v [VERBOSE]] [--init [INIT]] [-p] [--no-color]\n" ++
  "              [input]\n"

def helpText : String :=
  usage ++ "\n" ++
  "positional arguments:\n" ++
  "  input                 input file or directory\n" ++
  "\n" ++
  "options:\n" ++
  "  -h, --help            show this help message and exit\n" ++
  "  -o OUTPUT_FILE, --output-file OUTPUT_FILE\n" ++
  "                        output file path\n" ++
  "  -d OUTPUT_DIR, --output-dir OUTPUT_DIR\n" ++
  "                        output directory path\n" ++
  "  -c CONFIG, --config CONFIG\n" ++
  "                        configuration file path\n" ++
  "  -A, --accept-all      continue on errors without prompting\n" ++
  "  -n, --dry-run         compile but do not write output files\n" ++
  "  --verify              compile and compare against existing files; exit 1 if\n" ++
  "                        stale\n" ++
  "  -v [VERBOSE], --verbose [VERBOSE]\n" ++
  "                        verbosity level 0-2 (default 2; -v alone sets 2)\n" ++
  "  --init [INIT]         generate embedm-config.yaml in directory\n" ++
  "  -p, --plugin-list     list loaded plugins, run diagnostics, and exit\n" ++
  "  --no-color            disable color output\n"

def refusalLine (program : String) (r : Refusal) : String :=
  s!"{program}: error: {r.message}"

/-! ## Requests -/

structure Request where
  input : Option String := none
  outputFile : Option String := none
  outputFolder : Option String := none
  config : Option String := none
  acceptAll : Bool := false
  dryRun : Bool := false
  verify : Bool := false
  verbosity : Option Int := none
  init : Option String := none
  listPlugins : Bool := false
  noColor : Bool := false
deriving Repr, BEq

def verbosityOf (value : Option String) : Int :=
  match value with
  | none => 2
  | some v =>
    match Number.readInt v with
    | .ok n => n
    | .error _ => 2

def Request.add (r : Request) : Item Key → Request
  | .operand value => { r with input := some value }
  | .switch key value =>
    match key with
    | .help => r
    | .outputFile => { r with outputFile := value }
    | .outputFolder => { r with outputFolder := value }
    | .config => { r with config := value }
    | .acceptAll => { r with acceptAll := true }
    | .dryRun => { r with dryRun := true }
    | .verify => { r with verify := true }
    | .verbosity => { r with verbosity := some (verbosityOf value) }
    | .init => { r with init := some (value.getD "") }
    | .listPlugins => { r with listPlugins := true }
    | .noColor => { r with noColor := true }

def request (words : List String) : Except Stop Request := do
  return (← spec.parse words).foldl Request.add {}

def isGiven (s : Option String) : Bool :=
  s.getD "" != ""

def isFolderInput (d : Disk) (input : Option String) : Except Crash Bool :=
  match input with
  | none => .ok false
  | some "" => .ok false
  | some s =>
    if s.toList.contains '*' then .ok true
    else do
      match ← (d.probe (Path.ofText s).text).mapError .disk with
      | some .folder => return true
      | _ => return false

inductive Conflict where
  | twoOutputs
  | fileForFolder
  | verbosity (level : Int)
  | verifyDryRun
  | verifyNothing
  | noInput
deriving Repr, BEq, DecidableEq

def Conflict.status : Conflict → Status
  | .twoOutputs => .error "cannot specify both --output-file and --output-dir"
  | .fileForFolder => .error "cannot use --output-file with directory input, use --output-dir"
  | .verbosity level => .error s!"verbosity level must be 0-3, got {level}"
  | .verifyDryRun => .error "--verify and --dry-run are mutually exclusive"
  | .verifyNothing => .error "--verify requires --output-file or --output-dir"
  | .noInput => .error "no input provided; pass a file/directory or pipe via stdin"

def conflictIf (c : Conflict) (holds : Bool) : List Conflict :=
  if holds then [c] else []

def verbosityConflict (level : Option Int) : List Conflict :=
  match level with
  | some n => conflictIf (.verbosity n) (n < 0 || 3 < n)
  | none => []

/-- The conflicts of a request; `folder` says whether its input is a folder or a pattern. -/
def Request.conflicts (r : Request) (folder terminal : Bool) : List Conflict :=
  conflictIf .twoOutputs (isGiven r.outputFile && isGiven r.outputFolder) ++
  conflictIf .fileForFolder (isGiven r.outputFile && folder) ++
  verbosityConflict r.verbosity ++
  conflictIf .verifyDryRun (r.verify && r.dryRun) ++
  conflictIf .verifyNothing (r.verify && !isGiven r.outputFile && !isGiven r.outputFolder) ++
  conflictIf .noInput (!isGiven r.input && terminal)

def Request.configure (r : Request) (d : Disk) (terminal : Bool) (stdin : String) :
    Except Crash (Config × List Status) := do
  if let some path := r.init then
    return ({ initPath := some (if path == "" then "." else path) }, [])
  if r.listPlugins then return ({ listPlugins := true, configFile := r.config }, [])
  let folder ← isFolderInput d r.input
  let conflicts := r.conflicts folder terminal
  if !conflicts.isEmpty then return ({}, conflicts.map (·.status))
  let (mode, input) := match r.input with
    | none => (InputMode.stdin, stdin)
    | some "" => (InputMode.stdin, stdin)
    | some path => (if isGiven r.outputFolder || folder then .directory else .file, path)
  let config : Config := {
    mode, input, outputFile := r.outputFile, outputFolder := r.outputFolder, configFile := r.config,
    acceptAll := r.acceptAll, dryRun := r.dryRun, verify := r.verify, verbosity := r.verbosity.getD 2,
    noColor := r.noColor }
  return (config, [])

end Transclude.CommandLine
