import Transclude.Render.Stream
import Transclude.Stopwatch
import Transclude.Terminal

/-!
# Events on a terminal

While files are compiled, the last lines on the screen show how far each of them is. These lines are taken back and
written again; all others stay.
-/

namespace Transclude.Render

open Transclude.Number
open Transclude.Terminal (Stroke paint)

structure Active where
  path : String
  done : Int
  count : Int
  started : Binary64

structure Live where
  view : View
  watch : Stopwatch := {}
  lines : Nat := 0
  started : Binary64 := .zero false
  done : Int := 0
  total : Int := 0
  active : List Active := []
  errors : List String := []

namespace Live

/-! ## The live lines -/

def erase (l : Live) : Live × List Stroke :=
  if l.lines = 0 then (l, []) else ({ l with lines := 0 }, [.back l.lines])

def quotient (a b : Int) : Binary64 :=
  let q := Binary64.ofQuotient a.natAbs b.natAbs
  if a < 0 ∧ 0 < b ∨ 0 < a ∧ b < 0 then q.neg else q

def percent (a : Active) : Int :=
  if a.count = 0 then 0
  else (((quotient a.done a.count).mul (.ofInt 100)).truncate?).getD 0

def activeLine (l : Live) (a : Active) (watch : Stopwatch) : String × Stopwatch :=
  let (now, watch) := watch.read
  let (_, watch) := watch.read
  let shown := Path.shorten l.view.folder a.path
  let progress := paint .cyan l.view.color s!"{shown}: {percent a}%"
  let time := (now.sub a.started).fixed 2
  (s!" - {progress} ({time}s)", watch)

def activeLines (l : Live) : List Active → Stopwatch → List String × Stopwatch
  | [], watch => ([], watch)
  | a :: rest, watch =>
    let (line, watch) := activeLine l a watch
    let (lines, watch) := activeLines l rest watch
    (line :: lines, watch)

def redraw (l : Live) : Live × List Stroke :=
  let (l, erased) := l.erase
  let (now, watch) := l.watch.read
  let time := (now.sub l.started).fixed 2
  let title := paint .bold l.view.color s!"Embedm [{l.done}/{l.total}] {time}s"
  let (lines, watch) := activeLines l l.active watch
  ({ l with watch, lines := lines.length + 1 }, erased ++ (title :: lines).map .line)

/-! ## Events -/

/-- The files with one more that is started; a file that is already there starts again at its place. -/
def start (active : List Active) (a : Active) : List Active :=
  if active.any (·.path == a.path) then active.map fun b => if b.path == a.path then a else b
  else active ++ [a]

def finish (l : Live) (path : String) (lines : List String) : Live × List Stroke :=
  let (l, erased) := l.erase
  let active := l.active.filter (·.path != path)
  let (l, drawn) := redraw { l with done := l.done + 1, active }
  (l, erased ++ lines.map .line ++ drawn)

def stay (l : Live) (lines : List String) : Live × List Stroke :=
  (l, lines.map .line)

def step (l : Live) (e : Event) : Live × List Stroke :=
  let v := l.view
  match e with
  | .sessionStarted version config input output =>
    let dim := paint .dim v.color
    l.stay (v.atLeast 1 [paint .bold v.color s!"Embedm v{version}"] ++
      v.atLeast 2 [dim s!"Config: {config}", dim s!"Input:  {input}", dim s!"Output: {output}"])
  | .pluginsLoaded discovered loaded errors _ =>
    l.stay (errors.map (fun e => paint .red v.color s!"[ERR] {e}") ++
      (if errors.isEmpty then v.atLeast 2 [pluginCounts discovered loaded] else []))
  | .filePlanError path index total message =>
    l.stay (v.atLeast 2 [v.placed path index total, paint .red v.color s!"  [ERR] {message}"])
  | .compilationStarted files =>
    let (now, watch) := l.watch.read
    ({ l with watch, started := now, done := 0, total := files }, [])
  | .fileStarted path nodes _ _ =>
    if v.verbosity ≥ 2 then
      let (now, watch) := l.watch.read
      redraw { l with watch, active := start l.active { path, done := 0, count := nodes, started := now } }
    else (l, [])
  | .nodeCompiled path index count _ =>
    if v.verbosity ≥ 2 && l.active.any (·.path == path) then
      redraw { l with active := l.active.map fun a =>
        if a.path == path then { a with done := index, count } else a }
    else (l, [])
  | .fileCompleted path output elapsed _ _ =>
    if v.verbosity ≥ 2 then
      let source := Path.shorten v.folder path
      let target := Path.shorten v.folder output
      let tag := paint .green v.color "[OK]"
      let time := elapsed.fixed 2
      l.finish path [s!"{tag} {time}s  {source} -> {target}"]
    else (l, [])
  | .fileError path message elapsed _ _ =>
    if v.verbosity ≥ 2 then
      let source := Path.shorten v.folder path
      let tag := paint .red v.color "[ERR]"
      let time := elapsed.fixed 2
      let lines := [s!"{tag} {time}s {source}", s!"  {message}"]
      finish { l with errors := l.errors ++ lines } path lines
    else (l, [])
  | .sessionComplete summary =>
    if v.verbosity ≥ 1 then
      let (l, erased) := l.erase
      let again := if v.verbosity ≥ 2 && summary.errors > 0 && !l.errors.isEmpty then l.errors ++ [""] else []
      (l, erased ++ (again ++ [summary.text]).map .line)
    else (l, [])
  | e => l.stay (v.stream e)

end Live

end Transclude.Render
