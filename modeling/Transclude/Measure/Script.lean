import Transclude.Disk.Basic
import Transclude.Measure.Check
import Transclude.Stopwatch
import Transclude.Text.Word
import Transclude.Value.Json.Reader
import Transclude.Value.Json.Writer

/-!
# Measurements

A measurement runs the workloads under coverage, measures their shares of time and checks their results. Every
measurement is a round; when the shares do not get better any more, the report says so.
-/

namespace Transclude.Measure

open Transclude.Number Transclude.Text

/-! ## Commands -/

inductive Reply where
  | done (code : Int) (stdout stderr : String)
  | unavailable (reason : String)
deriving Repr, BEq, DecidableEq

inductive Halt where
  | exit (code : Int)
  | unavailable (reason : String)
  | disk (fault : Disk.Fault)
  | json (fault : Json.Fault)
deriving Repr, DecidableEq

structure Record where
  out : List String := []
  err : List String := []
  ran : List String := []

abbrev Steps := ExceptT Halt (StateM Record)

def say (lines : List String) : Steps Unit :=
  modify fun r => { r with out := (lines.map (· ++ "\n")).reverse ++ r.out }

def warn (text : String) : Steps Unit :=
  modify fun r => { r with err := text :: r.err }

def ask (sh : String → Reply) (command : String) : Steps Reply := do
  modify fun r => { r with ran := command :: r.ran }
  return sh command

def lastValue (stdout : String) : Except Json.Fault Value :=
  match (splitLines (trim stdout.toList)).getLast? with
  | none => .ok (.map [])
  | some line => Json.read (String.ofList line)

def askValue (sh : String → Reply) (command label : String) : Steps Value := do
  match ← ask sh command with
  | .unavailable reason =>
    warn s!"[{label} runner: OSError: {reason}]\n"
    return .map []
  | .done _ stdout stderr =>
    warn stderr
    match lastValue stdout with
    | .ok v => return v
    | .error fault =>
      let kind := match fault with
        | .integer _ => "ValueError"
        | _ => "JSONDecodeError"
      warn s!"[{label} runner: {kind}: {fault.message}]\n"
      return .map []

def isModified (sh : String → Reply) : Steps Bool := do
  match ← ask sh "git" with
  | .done _ stdout _ => return strip stdout != ""
  | .unavailable _ => return false

/-! ## Workloads -/

def beginsWorkload (cs : List Char) : Bool :=
  match after? "def bench_".toList cs with
  | none => false
  | some rest =>
    let name := rest.takeWhile isWord
    !name.isEmpty && ((rest.drop name.length).dropWhile isBlank).head? == some '('

def countWorkloads (atStart : Bool) : List Char → Nat
  | [] => 0
  | c :: rest =>
    (if atStart && beginsWorkload (c :: rest) then 1 else 0) + countWorkloads (c == '\n') rest

def workloads (d : Disk) (path : String) : Nat :=
  match d.text path with
  | .ok text => countWorkloads true text.toList
  | .error _ => 0

/-! ## Checkpoints -/

def checkpointFile : String := ".pti_checkpoint.jsonl"

def readRounds (d : Disk) : Nat × Option (List Value) :=
  match d.text checkpointFile with
  | .error _ => (0, some [])
  | .ok text =>
    let lines := (splitLines text.toList).filter (!allBlank ·)
    let values := lines.mapM fun l => (Json.read (String.ofList l)).toOption
    (lines.length, values)

def patience : Nat := 3

def converged? (counts : List Int) : Option Int :=
  let before := counts.dropLast.dropLast.dropLast
  let last := counts.drop before.length
  match before.min?, last.min? with
  | some old, some new => if patience ≤ last.length && old ≤ new then some old else none
  | _, _ => none

def stopLine (best : Int) : String :=
  s!">>> STOP: repo_time converged (no improvement in {patience} rounds; best {best} below). " ++
    "Finalize microbench.py now. <<<"

/-! ## The script -/

structure Occasion where
  shell : String → Reply
  disk : Disk
  now : Value
  watch : Stopwatch
  folder : Path

def mapping (entries : List (String × Value)) : Value :=
  .map (entries.map fun e => (.text e.1, e.2))

def measureCoverage (o : Occasion) : Steps (Value × Binary64) := do
  let (start, watch) := o.watch.read
  match ← ask o.shell "_pti_cov_runner.py" with
  | .unavailable reason => throw (.unavailable reason)
  | .done code stdout stderr =>
    warn stderr
    if code ≠ 0 || !o.disk.has "_pti_coverage.json" then
      say [s!"coverage measurement failed (exit {code})\n{stdout}"]
      throw (.exit (if code = 0 then 1 else code))
    match o.disk.text "_pti_coverage.json" with
    | .error fault => throw (.disk fault)
    | .ok text =>
      match Json.read text with
      | .error fault => throw (.json fault)
      | .ok report => return (report, watch.read.1.sub start)

def append (d : Disk) (path line : String) : Disk :=
  let old := ((d.bytes path).toOption.getD ByteArray.empty)
  (d.write path (old ++ (line ++ "\n").toUTF8)).toOption.getD d

def measure (o : Occasion) : Steps Disk := do
  let (report, elapsed) ← measureCoverage o
  let totals := Totals.ofReport report
  let errors := entriesOf (entry (entry report "meta") "_pti_bench_errors")
  say (coverageTable o.folder report totals)
  say (errorLines errors)
  let timed ← if o.disk.has "_pti_repotime.py" then askValue o.shell "_pti_repotime.py" "repotime"
    else pure .null
  let shares := entriesOf (entry timed "repo_time_pct")
  say (shareLines shares (entry timed "hot_ext"))
  let checked ← if o.disk.has "_pti_semcheck.py" then do
      let modified ← isModified o.shell
      let found ← askValue o.shell "_pti_semcheck.py" "semcheck"
      pure (checkAll modified (entry found "semcheck"))
    else pure []
  say (checkLines checked)
  let low := shares.countP (isLow ·.2)
  let bad := checked.countP (·.verdict.isBad)
  let count := workloads o.disk "microbench.py"
  let (lines, rounds) := readRounds o.disk
  let percent := (numberOf totals.percent).fixed 1
  let measured := shares.countP (isMeasured ·.2)
  let lowText := if shares.isEmpty then "" else s!", {low}/{measured} below repo_time 45%"
  let badText := if checked.isEmpty then "" else s!", {bad}/{checked.length} not self-checking"
  let time := elapsed.fixed 1
  say ["", s!"[round {lines + 1}: {count} benches, {percent}% covered{lowText}{badText}, measured in {time}s]"]
  match rounds with
  | none => return o.disk
  | some rounds =>
    let since := match rounds.getLast? with
      | some last => (numberOf o.now).sub (numberOf (entry last "ts"))
      | none => .zero false
    let lowCount : Value := if shares.isEmpty then .null else .int low
    let line := mapping [
      ("round", .int (lines + 1)), ("ts", o.now), ("wall_since_prev_s", .float (since.roundTo 2)),
      ("coverage_pct", totals.percent), ("covered_lines", totals.covered),
      ("num_statements", totals.statements), ("n_bench_fns", .int count),
      ("n_bench_errors", .int errors.length), ("cov_measure_s", .float (elapsed.roundTo 3)),
      ("repo_time_pct", mapping shares), ("n_below_repo_time", lowCount),
      ("semcheck", mapping (checked.map fun c => (c.name, .text c.verdict.name))),
      ("n_not_self_checking", .int bad)]
    let counts := (rounds ++ [line]).filterMap fun r =>
      match entry r "n_below_repo_time" with
      | .int n => some n
      | _ => none
    if let some best := converged? counts then
      if !shares.isEmpty then say ["", stopLine best]
    return append o.disk checkpointFile ((Json.write line).toOption.getD "")

structure Outcome where
  halt : Option Halt
  stdout : String
  stderr : String
  ran : List String
  disk : Disk

def run (o : Occasion) : Outcome :=
  let (r, record) := (measure o).run {}
  { halt := match r with
      | .ok _ => none
      | .error h => some h
    stdout := String.join record.out.reverse
    stderr := String.join record.err.reverse
    ran := record.ran.reverse
    disk := match r with
      | .ok d => d
      | .error _ => o.disk }

end Transclude.Measure
