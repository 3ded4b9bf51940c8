import Transclude.Render.Summary

/-!
# Events as plain lines

Each event is shown by lines of its own; how many depends on the verbosity.
-/

namespace Transclude.Render

open Transclude.Number

structure View where
  folder : Path
  verbosity : Int
  color : Bool := false

def View.atLeast (v : View) (level : Int) (lines : List String) : List String :=
  if v.verbosity ≥ level then lines else []

def View.placed (v : View) (path : String) (index total : Int) : String :=
  let shown := Path.shorten v.folder path
  s!"  [{index + 1}/{total}] {shown}"

def pluginCounts (discovered loaded : Int) : String :=
  s!"{discovered} plugins discovered, {loaded} plugins loaded."

def View.stream (v : View) : Event → List String
  | .sessionStarted version config input output =>
    v.atLeast 1 [s!"Embedm v{version}"] ++
    v.atLeast 2 [s!"Config: {config}", s!"Input:  {input}", s!"Output: {output}"]
  | .pluginsLoaded discovered loaded errors _ =>
    errors.map (fun e => s!"[ERR] {e}") ++
    (if errors.isEmpty then v.atLeast 2 [pluginCounts discovered loaded] else [])
  | .planningStarted files => v.atLeast 2 [s!"Planning {files} file(s)"]
  | .filePlanned path index total => v.atLeast 2 [v.placed path index total]
  | .filePlanError path index total message =>
    v.atLeast 2 [v.placed path index total, s!"  [ERR] {message}"]
  | .fileCompleted path output elapsed _ _ =>
    let source := Path.shorten v.folder path
    let target := Path.shorten v.folder output
    let time := elapsed.fixed 2
    v.atLeast 2 [s!"[OK] {time}s  {source} -> {target}"]
  | .fileError path message elapsed _ _ =>
    let source := Path.shorten v.folder path
    let time := elapsed.fixed 2
    v.atLeast 2 [s!"[ERR] {time}s {source}", s!"  {message}"]
  | .sessionComplete summary => v.atLeast 1 [summary.text]
  | _ => []

end Transclude.Render
