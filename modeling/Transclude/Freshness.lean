import Transclude.Crash
import Transclude.Target

/-!
# Freshness

A result is compared with the file that it would be written to, byte by byte and with the line endings
that it would be written with.
-/

namespace Transclude

inductive Freshness where
  | upToDate
  | stale
  | missing
deriving Repr, BEq, DecidableEq

namespace Freshness

def name : Freshness → String
  | .upToDate => "up-to-date"
  | .stale => "stale"
  | .missing => "missing"

def label : Freshness → String
  | .upToDate => "UP-TO-DATE"
  | .stale => "STALE"
  | .missing => "MISSING"

def check (d : Disk) (lineEndings result path : String) : Except Crash Freshness := do
  let name := (Path.ofText path).text
  match ← (d.probe name).mapError .disk with
  | none => return .missing
  | some .folder => .error (.disk (.isFolder name))
  | some (.file bytes) =>
    return if bytes == (Target.endLines lineEndings result).toUTF8 then .upToDate else .stale

end Freshness

end Transclude
