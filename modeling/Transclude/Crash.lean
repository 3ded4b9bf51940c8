import Transclude.Disk.Search
import Transclude.Template
import Transclude.Value.Csv
import Transclude.Value.Yaml.Fault
import Transclude.Value.Json.Writer

/-!
# Crashes

A crash ends the operation in which it arises, and is passed on until some outer operation has an answer for it.
-/

namespace Transclude

inductive Crash where
  | yaml (fault : Yaml.Fault)
  | json (fault : Json.Fault)
  | unwritable (fault : Json.Unwritable)
  | disk (fault : Disk.Fault)
  | nullInPath
  | notBelow (path base : String)
  | pattern (fault : Disk.PatternFault)
  | csv (fault : Csv.Fault)
  | longInteger (digits : Nat)
  | template (fault : Template.Fault)
  | broken (promise : String)
  | noAttribute (kind name : String)
  | notText (kind : String)
  | notSearchable (kind : String)
  | notMember (kind : String)
  | exit (code : Nat)
deriving Repr, DecidableEq

def Crash.message : Crash → String
  | .yaml fault => fault.message
  | .json fault => fault.message
  | .unwritable fault => fault.message
  | .disk fault => fault.message
  | .nullInPath => "embedded null byte"
  | .notBelow path base =>
    Text.quoted path ++ " is not in the subpath of " ++ Text.quoted base ++
      " OR one path is relative and the other is absolute."
  | .pattern fault => fault.message
  | .csv fault => fault.message
  | .longInteger digits => Json.tooManyDigits digits
  | .template fault => fault.message
  | .broken promise => promise
  | .noAttribute kind name => s!"'{kind}' object has no attribute '{name}'"
  | .notText kind => s!"expected string or bytes-like object, got '{kind}'"
  | .notSearchable kind => s!"argument of type '{kind}' is not iterable"
  | .notMember kind => s!"unhashable type: '{kind}'"
  | .exit code => toString code

def Path.follow (folder : Path) (s : String) : Except Crash Path :=
  if hasNull s then .error .nullInPath else .ok (resolve folder (ofText s))

end Transclude
