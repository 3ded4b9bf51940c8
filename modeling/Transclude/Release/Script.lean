import Transclude.Arguments
import Transclude.Disk.Basic
import Transclude.Release.Version
import Transclude.Value.Shown
import Transclude.Value.Toml.Reader

/-!
# Releases

A release checks that it may be made, raises the version, and commits, tags and publishes. Its steps are commands that a
`Shell` answers; one that fails ends the release.
-/

namespace Transclude.Release

open Transclude.Text Transclude.Arguments

/-! ## Commands -/

inductive Reply where
  | output (text : String)
  | failure (text : String)
  | unavailable (reason : String)
deriving Repr, BEq, DecidableEq

abbrev Shell := String → Reply

inductive Halt where
  | exit (code : Nat)
  | unavailable (reason : String)
  | disk (fault : Disk.Fault)
  | toml (fault : Toml.Fault)
  | missingKey (key : String)
  | notTable (kind : String)
  | notText (kind : String)
  | version (fault : VersionFault)
deriving Repr, DecidableEq

structure Record where
  out : List String := []
  err : List String := []
  ran : List String := []

abbrev Steps := ExceptT Halt (StateM Record)

def say (line : String) : Steps Unit :=
  modify fun r => { r with out := (line ++ "\n") :: r.out }

def ask (sh : Shell) (command : String) : Steps Reply := do
  modify fun r => { r with ran := command :: r.ran }
  return sh command

def runCommand (sh : Shell) (command : String) : Steps String := do
  match ← ask sh command with
  | .output text => return strip text
  | .failure text =>
    say s!"[ERROR] Error executing: {command}\n{text}"
    throw (.exit 1)
  | .unavailable reason => throw (.unavailable reason)

def perform (sh : Shell) (dry : Bool) (command : String) : Steps Unit := do
  if dry then say s!"[DRY-RUN] Would execute: {command}" else discard (runCommand sh command)

/-! ## Checks -/

def permissionCommand : String :=
  "gh api repos/:owner/:repo/collaborators/\x7bowner\x7d/permission"

def checkPermission (sh : Shell) : Steps Unit := do
  match ← ask sh permissionCommand with
  | .unavailable _ =>
    say "[WARN] Could not verify permissions. Ensure 'gh' is logged in."
    throw (.exit 1)
  | .failure text =>
    say s!"[ERROR] Error executing: {permissionCommand}\n{text}"
    throw (.exit 1)
  | .output text =>
    let dense := text.toList.filter (· != ' ')
    if !contains "\"permission\":\"admin\"".toList dense then
      say "[ERROR] Access Denied: You must have Admin permissions to release."
      throw (.exit 1)

def checkTree (sh : Shell) : Steps Unit := do
  let branch ← runCommand sh "git rev-parse --abbrev-ref HEAD"
  if branch != "main" then
    say s!"[ERROR] You are on branch '{branch}'. Releases must happen on 'main'."
    throw (.exit 1)
  let changes ← runCommand sh "git status --porcelain"
  if changes != "" then
    say "[ERROR] Your working directory is dirty. Commit or stash changes before releasing."
    say s!"Changes detected:\n{changes}"
    throw (.exit 1)
  say "[OK] Git state verified: On main branch with a clean tree."

/-! ## The request -/

inductive Key where
  | help
  | dryRun
deriving Repr, BEq, DecidableEq

def spec : Spec Key where
  program := "create_release.py"
  help := { key := .help, names := ["-h", "--help"] }
  switches := [{ key := .dryRun, names := ["--dry-run"] }]

def usage : String :=
  "usage: create_release.py [-h] [--dry-run] [version]\n"

def helpText : String :=
  usage ++ "\npositional arguments:\n  version\n\noptions:\n" ++
  "  -h, --help  show this help message and exit\n  --dry-run\n"

structure Request where
  version : String := "patch"
  dryRun : Bool := false

def Request.add (r : Request) : Item Key → Request
  | .operand version => { r with version }
  | .switch _ _ => { r with dryRun := true }

def readRequest (words : List String) : Steps Request := do
  match spec.parse words with
  | .ok items => return items.foldl Request.add {}
  | .error .help =>
    modify fun r => { r with out := helpText :: r.out }
    throw (.exit 0)
  | .error (.refused refusal) =>
    modify fun r => { r with err := s!"{spec.program}: error: {refusal.message}\n" :: usage :: r.err }
    throw (.exit 2)

/-! ## Versions -/

def entry (v : Value) (key : String) : Except Halt Value :=
  match v with
  | .map entries =>
    match Value.get? entries key with
    | some found => .ok found
    | none => .error (.missingKey key)
  | v => .error (.notTable v.kind)

def currentVersion (d : Disk) : Except Halt Value := do
  let bytes ← (d.bytes "pyproject.toml").mapError .disk
  let text ← (Utf8.decode bytes).mapError fun fault => .disk (.undecodable fault)
  let project ← entry (← (Toml.read text).mapError .toml) "project"
  entry project "version"

def targetVersion (current : Value) (asked : String) : Except Halt String :=
  match Version.Bump.ofName? asked with
  | none => .ok asked
  | some bump =>
    match current with
    | .text s => do
      let v ← (Version.read s).mapError .version
      return (v.next bump).text
    | v => .error (.notText v.kind)

def lift {α : Type} (r : Except Halt α) : Steps α :=
  match r with
  | .ok a => pure a
  | .error h => throw h

/-! ## The steps -/

def updateSnapshots (sh : Shell) : Steps Unit := do
  say "Running 'make update_snapshots' to update documentation and lockfiles..."
  match ← ask sh "make update_snapshots" with
  | .output _ => return
  | .unavailable reason => throw (.unavailable reason)
  | .failure _ =>
    say "\n[ERROR] 'make update_snapshots' failed!"
    say "Reverting pyproject.toml..."
    discard (runCommand sh "git checkout pyproject.toml")
    throw (.exit 1)

def publish (sh : Shell) (dry : Bool) (target : String) : Steps Unit := do
  perform sh dry s!"uv version {target}"
  if dry then say "[DRY-RUN] Would run 'make snapshots'" else updateSnapshots sh
  say s!"Committing changes for v{target}..."
  perform sh dry "git add ."
  perform sh dry s!"git commit -m \"chore: bump version to {target} and update snapshots\""
  say "Pushing code to main..."
  perform sh dry "git push origin main"
  say s!"Tagging v{target}..."
  perform sh dry s!"git tag -a v{target} -m \"Release v{target}\""
  perform sh dry "git push origin --tags"
  say "Creating GitHub Release..."
  perform sh dry s!"gh release create v{target} --generate-notes"

def release (sh : Shell) (d : Disk) (words : List String) : Steps Unit := do
  checkPermission sh
  checkTree sh
  let request ← readRequest words
  let current ← lift (currentVersion d)
  let target ← lift (targetVersion current request.version)
  let dry := if request.dryRun then "DRY RUN " else ""
  say s!"Starting {dry}release: {current.asText} -> {target}"
  publish sh request.dryRun target
  if request.dryRun then say "\n[OK] Dry run complete."

structure Outcome where
  halt : Option Halt
  stdout : String
  stderr : String
  ran : List String

def run (sh : Shell) (d : Disk) (words : List String) : Outcome :=
  let (r, record) := (release sh d words).run {}
  { halt := match r with
      | .ok _ => none
      | .error h => some h
    stdout := String.join record.out.reverse
    stderr := String.join record.err.reverse
    ran := record.ran.reverse }

end Transclude.Release
