import Transclude.Session

/-!
# The command

Files below the current folder are read into a disk, a session works on that disk, and the files that it changed are
written back. A prompt at a terminal finds no answer.
-/

namespace Transclude.Command

partial def readBelow (d : Disk) (folder : String) : IO Disk := do
  let place ← IO.FS.realPath folder
  let mut d := d
  for entry in ← place.readDir do
    let path := entry.path
    if ← path.isDir then
      if (← IO.FS.realPath path) == path then
        d ← readBelow (d.withFolder (.ofText path.toString)) path.toString
    else
      match ← (IO.FS.readBinFile path).toBaseIO with
      | .ok bytes => d := d.withFile (.ofText path.toString) bytes
      | .error _ => pure ()
  return d

def writeChanges (before after : Disk) : IO Unit := do
  for (path, bytes) in Disk.changes before after do
    IO.FS.createDirAll path.parent.text
    IO.FS.writeBinFile path.text bytes

def session (words : List String) : IO UInt32 := do
  let stdin ← IO.getStdin
  let stdout ← IO.getStdout
  let stdinTerminal ← stdin.isTty
  let input ← if stdinTerminal then pure "" else stdin.readToEnd
  let folder ← IO.FS.realPath "."
  let before ← readBelow (.blank (.ofText folder.toString)) folder.toString
  let outcome := Session.run before {
    words
    stdin := input
    stdinTerminal
    stdoutTerminal := ← stdout.isTty
    colorless := ((← IO.getEnv "NO_COLOR").getD "") != "" }
  writeChanges before outcome.disk
  stdout.putStr outcome.stdout
  IO.eprint outcome.stderr
  match outcome.exit with
  | .ok code => return code.toUInt32
  | .error c =>
    IO.eprintln c.message
    return 1

end Transclude.Command

def main (words : List String) : IO UInt32 :=
  Transclude.Command.session words
