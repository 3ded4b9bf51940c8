import Transclude.Measure.Coverage

/-!
# Checks of workloads

A workload has to spend a share of its time in the code that is measured, and to give a result that is the same on every
run, is not its input and depends on its size.
-/

namespace Transclude.Measure

open Transclude.Number

/-! ## Shares of time -/

def lowShare : Binary64 := .ofInt 45

def isMeasured (share : Value) : Bool :=
  (Binary64.zero false).le (numberOf share)

def isLow (share : Value) : Bool :=
  isMeasured share && (numberOf share).lt lowShare

def hotText (hot : List Value) : String :=
  if hot.isEmpty then ""
  else
    let parts := hot.map fun h =>
      match h with
      | .list [share, name] =>
        let percent := (numberOf share).fixed 0
        s!"{name.asText} {percent}%"
      | v => v.asText
    let shown := " ".intercalate parts
    s!" (hot: {shown})"

def shareLine (hot : Value) (e : String × Value) : String :=
  let mark := if isLow e.2 then "*" else " "
  let share := if isMeasured e.2 then numberOf e.2 else .zero false
  let note :=
    if !isMeasured e.2 then "  <error>" else if isLow e.2 then hotText (itemsOf (entry hot e.1)) else ""
  s!"  {mark} " ++ left 32 e.1 ++ right 6 (share.fixed 1) ++ "%" ++ note

def shareLines (shares : List (String × Value)) (hot : Value) : List String :=
  if shares.isEmpty then []
  else
    let sorted := shares.mergeSort fun a b => (numberOf a.2).le (numberOf b.2)
    ["", "repo_time (target 50%; * = below 45%):"] ++ sorted.map (shareLine hot)

/-! ## Results -/

inductive Verdict where
  | error
  | returnsNone
  | unstable
  | returnsInput
  | lowRepoTime
  | tooFast
  | paramInvariant
  | repoModified
  | okUnparam
  | ok
deriving Repr, BEq, DecidableEq

def Verdict.name : Verdict → String
  | .error => "error"
  | .returnsNone => "returns-none"
  | .unstable => "unstable"
  | .returnsInput => "returns-input"
  | .lowRepoTime => "low-repo-time"
  | .tooFast => "too-fast"
  | .paramInvariant => "param-invariant"
  | .repoModified => "repo-modified"
  | .okUnparam => "ok-unparam"
  | .ok => "ok"

def Verdict.isBad : Verdict → Bool
  | .okUnparam => false
  | .ok => false
  | _ => true

def resultKind (check : Value) : Option String :=
  match entry check "ret_type" with
  | .text s => some s
  | _ => none

def isStable (prints : List Value) : Bool :=
  match prints with
  | [] => false
  | p :: rest => rest.all (· == p)

def numbersOf (v : Value) : List Binary64 :=
  (entriesOf v).map fun e => numberOf e.2

def least (xs : List Binary64) : Binary64 :=
  match xs with
  | [] => .zero false
  | x :: rest => rest.foldl (fun a b => if b.lt a then b else a) x

def median (xs : List Binary64) : Binary64 :=
  let sorted := xs.mergeSort Binary64.le
  let n := sorted.length
  let at_ := fun i => sorted[i]?.getD (.zero false)
  if n % 2 = 1 then at_ (n / 2) else ((at_ (n / 2 - 1)).add (at_ (n / 2))).div (.ofInt 2)

def verdict (modified : Bool) (check : Value) : Verdict :=
  let prints := itemsOf (entry check "fp_stable")
  let inputs := itemsOf (entry check "param_fps")
  let bySize := (entriesOf (entry check "fp_by_param")).map (·.2)
  let shares := numbersOf (entry check "repo_frac")
  let times := numbersOf (entry check "repo_tt_ms")
  match resultKind check with
  | none => .error
  | some kind =>
    if kind.toList.head? = some '<' then .error
    else if kind == "NoneType" then .returnsNone
    else if !isStable prints then .unstable
    else if prints.any inputs.contains then .returnsInput
    else if !shares.isEmpty && (least shares).lt (.ofRatio false 1 2) then .lowRepoTime
    else if !times.isEmpty && (median times).lt (.ofInt 1) then .tooFast
    else if 2 ≤ bySize.length && isStable bySize then .paramInvariant
    else if modified then .repoModified
    else if bySize.length < 2 then .okUnparam
    else .ok

def checkLine (name : String) (check : Value) (v : Verdict) : String :=
  let mark := if v.isBad then "*" else " "
  let kind := (resultKind check).getD "?"
  let share := ((least (numbersOf (entry check "repo_frac"))).mul (.ofInt 100)).fixed 0
  let time := (median (numbersOf (entry check "repo_tt_ms"))).fixed 1
  s!"  {mark} " ++ left 32 name ++ " " ++ left 16 v.name ++ s!" ({kind}, repo {share}%) {time}ms"

def advice : List String := [
  "  returns-none: run() has no return — collect and return the call results",
  "  unstable: seed RNG in setup; avoid time/uuid/id in the return",
  "  returns-input: return repo output, not the parameter value",
  "  low-repo-time: <50% of run() time is in repo code — move glue to setup",
  "  param-invariant: return something derived from run()'s work, not setup",
  "  repo-modified: revert edits to repo files (git checkout -- <path>)"]

structure Checked where
  name : String
  check : Value
  verdict : Verdict

def checkAll (modified : Bool) (checks : Value) : List Checked :=
  (entriesOf checks).filterMap fun e =>
    match e.2 with
    | .map _ => some { name := e.1, check := e.2, verdict := verdict modified e.2 }
    | _ => none

def checkLines (checked : List Checked) : List String :=
  if checked.isEmpty then []
  else
    let sorted := checked.filter (·.verdict.isBad) ++ checked.filter (!·.verdict.isBad)
    ["", "self-check (* = fix needed):"] ++ advice ++
      sorted.map fun c => checkLine c.name c.check c.verdict

end Transclude.Measure
