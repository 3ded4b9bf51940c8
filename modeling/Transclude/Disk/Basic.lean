import Transclude.Path
import Transclude.Text.Utf8

/-!
# Disks

A disk holds files and folders by their names from the root on. A text is followed name by name as it is written, so a
name before `..` has to be a folder.
-/

namespace Transclude

inductive Disk.Entry where
  | folder
  | file (bytes : ByteArray)
deriving Inhabited

structure Disk where
  folder : Path
  entries : List (List String × Disk.Entry)

namespace Disk

inductive Fault where
  | missing (path : String)
  | isFolder (path : String)
  | notFolder (path : String)
  | exists (path : String)
  | tooLong (path : String)
  | undecodable (fault : Utf8.Fault)
deriving Repr, DecidableEq

def Fault.message : Fault → String
  | .missing path => "[Errno 2] No such file or directory: " ++ Text.quoted path
  | .isFolder path => "[Errno 21] Is a directory: " ++ Text.quoted path
  | .notFolder path => "[Errno 20] Not a directory: " ++ Text.quoted path
  | .exists path => "[Errno 17] File exists: " ++ Text.quoted path
  | .tooLong path => "[Errno 36] File name too long: " ++ Text.quoted path
  | .undecodable fault => fault.message

/-! ## Places -/

def entry? (d : Disk) (place : List String) : Option Entry :=
  if place.isEmpty then some .folder else d.entries.lookup place

def isFolderAt (d : Disk) (place : List String) : Bool :=
  match d.entry? place with
  | some .folder => true
  | _ => false

def maxName : Nat := 255

def maxPath : Nat := 4095

def step (d : Disk) (path : String) (place : List String) (name : String) : Except Fault (List String) :=
  match d.entry? place with
  | none => .error (.missing path)
  | some (.file _) => .error (.notFolder path)
  | some .folder =>
    if name == "" || name == "." then .ok place
    else if name == ".." then .ok place.dropLast
    else if name.utf8ByteSize > maxName then .error (.tooLong path)
    else .ok (place ++ [name])

def locate (d : Disk) (path : String) : Except Fault (List String) :=
  if path.isEmpty then .error (.missing path)
  else if path.utf8ByteSize > maxPath then .error (.tooLong path)
  else
    let start := if path.toList.head? = some '/' then [] else d.folder.parts
    ((Text.splitAt '/' path.toList).map String.ofList).foldlM (d.step path) start

def stat? (d : Disk) (path : String) : Option Entry :=
  match d.locate path with
  | .ok place => d.entry? place
  | .error _ => none

def probe (d : Disk) (path : String) : Except Fault (Option Entry) :=
  match d.locate path with
  | .ok place => .ok (d.entry? place)
  | .error (.tooLong p) => .error (.tooLong p)
  | .error _ => .ok none

def isFile (d : Disk) (path : String) : Bool :=
  match d.stat? path with
  | some (.file _) => true
  | _ => false

def isFolder (d : Disk) (path : String) : Bool :=
  match d.stat? path with
  | some .folder => true
  | _ => false

def has (d : Disk) (path : String) : Bool :=
  (d.stat? path).isSome

def names (d : Disk) (place : List String) : List String :=
  Text.sortTexts (d.entries.filterMap fun e =>
    if !e.1.isEmpty && e.1.dropLast == place then e.1.getLast? else none)

/-! ## Reading -/

def bytes (d : Disk) (path : String) : Except Fault ByteArray := do
  match d.entry? (← d.locate path) with
  | none => .error (.missing path)
  | some .folder => .error (.isFolder path)
  | some (.file bytes) => return bytes

def text (d : Disk) (path : String) : Except Fault String := do
  let s ← (Utf8.decode (← d.bytes path)).mapError .undecodable
  return String.ofList (Text.universalNewlines s.toList)

def size (d : Disk) (path : String) : Nat :=
  match d.bytes path with
  | .ok bytes => bytes.size
  | .error _ => 0

/-! ## Changing -/

def put (d : Disk) (place : List String) (e : Entry) : Disk :=
  if d.entries.any (·.1 == place) then
    { d with entries := d.entries.map fun x => if x.1 == place then (place, e) else x }
  else { d with entries := d.entries ++ [(place, e)] }

def write (d : Disk) (path : String) (bytes : ByteArray) : Except Fault Disk := do
  let body := (path.toList.reverse.dropWhile (· == '/')).reverse
  if body.isEmpty && !path.isEmpty then .error (.isFolder path)
  let place ← d.locate (String.ofList body)
  if body.length < path.length then .error (.isFolder path)
  match d.entry? place with
  | some .folder => .error (.isFolder path)
  | _ => return d.put place (.file bytes)

def writeText (d : Disk) (path : String) (text : String) : Except Fault Disk :=
  d.write path text.toUTF8

def remove (d : Disk) (path : String) : Except Fault Disk := do
  let place ← d.locate path
  match d.entry? place with
  | none => .error (.missing path)
  | some .folder => .error (.isFolder path)
  | some (.file _) => return { d with entries := d.entries.filter (·.1 != place) }

def enter (path : String) (at_ : Disk × List String) (name : String) : Except Fault (Disk × List String) := do
  let (d, place) := at_
  let next ← d.step path place name
  match d.entry? next with
  | some _ => return (d, next)
  | none => return (d.put next .folder, next)

def makeFolders (d : Disk) (p : Path) : Except Fault Disk := do
  let start := if p.isAbsolute then [] else d.folder.parts
  let (made, place) ← p.parts.foldlM (enter p.text) (d, start)
  match made.entry? place with
  | some (.file _) => .error (.exists p.text)
  | _ => return made

def withFolder (d : Disk) (p : Path) : Disk :=
  (d.makeFolders p).toOption.getD d

def withFile (d : Disk) (p : Path) (bytes : ByteArray) : Disk :=
  let d := d.withFolder p.parent
  (d.write p.text bytes).toOption.getD d

def changes (before after : Disk) : List (Path × ByteArray) :=
  after.entries.filterMap fun e =>
    match e.2, before.entries.lookup e.1 with
    | .folder, _ => none
    | .file bytes, some (.file old) => if old == bytes then none else some ({ root := "/", parts := e.1 }, bytes)
    | .file bytes, _ => some ({ root := "/", parts := e.1 }, bytes)

def blank (folder : Path) : Disk :=
  let places := (List.range folder.parts.length).map fun n => folder.parts.take (n + 1)
  { folder, entries := places.map (·, .folder) }

end Disk

end Transclude
