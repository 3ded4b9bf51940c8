import Transclude.Cache
import Transclude.Workload.Text

/-!
# A workload on a cache

The files of a folder are read twice through a cache that has room for all of them.
-/

namespace Transclude.Workload

def maxFileSize : Nat := 200

def storePath (i : Nat) : String := s!"/data/f{i}.txt"

def storeDisk (n : Nat) : Disk :=
  let start : Disk := { folder := .ofText "/", entries := [] }
  (List.range n).foldl (fun d i => d.withFile (.ofText (storePath i)) s!"file {i}\n".toUTF8) start

def presenceName : Cache.Presence → String
  | .absent => "NOT_IN_CACHE"
  | .loaded => "LOADED"
  | .unloaded => "UNLOADED"

def readStored (d : Disk) (at_ : Cache × List Status × Nat) (path : String) :
    Except Crash (Cache × List Status × Nat) := do
  let reply ← at_.1.get d path
  return (reply.cache, at_.2.1 ++ reply.errors, at_.2.2 + reply.events.length)

/-- Reads `n` files twice through a cache with room for them: what is known of each file, of the first one
again and of a file that was not asked for, the errors, and how much happened. -/
def store (n : Nat) : Except Crash Value := do
  let d := storeDisk n
  let empty ← Cache.make (.int maxFileSize) (.int (n * maxFileSize + 1)) ["/data"] false
  let paths := (List.range n).map storePath
  let (c, errors, count) ← (paths ++ paths).foldlM (readStored d) (empty, [], 0)
  let known := fun (p : String) => Value.text (presenceName (c.presence p))
  return .list ((paths ++ [storePath 0, storePath n]).map known ++
    [.list (errors.map fun s => .text s.text), ofNat count])

end Transclude.Workload
