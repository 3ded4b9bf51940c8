import Transclude.Disk.Basic
import Transclude.Disk.Wildcard

/-!
# Searching a disk

`Disk.find` follows a path with wildcards, in which `**` stands for any number of folders. Hidden names are found only
by a name that begins with a point; `Disk.listAll` finds them too.
-/

namespace Transclude.Disk

open Transclude.Text

/-! ## Texts of paths -/

def cutLast (path : List Char) : List Char × List Char :=
  let name := (path.reverse.takeWhile (· != '/')).reverse
  let head := path.take (path.length - name.length)
  let bare := (head.reverse.dropWhile (· == '/')).reverse
  (if bare.isEmpty then head else bare, name)

def below (folder name : String) : String :=
  if name.toList.head? = some '/' then name
  else if folder.isEmpty || folder.toList.getLast? = some '/' then folder ++ name
  else folder ++ "/" ++ name

def belowAny (folder name : String) : String :=
  if folder.isEmpty then name else if name.isEmpty then folder else below folder name

def isHidden (name : String) : Bool :=
  name.toList.head? = some '.'

/-! ## Finding -/

def list (d : Disk) (folder : String) (foldersOnly : Bool) : List String :=
  match d.locate (if folder.isEmpty then "." else folder) with
  | .error _ => []
  | .ok place =>
    if d.isFolderAt place then
      (d.names place).filter fun n => !foldersOnly || d.isFolderAt (place ++ [n])
    else []

def listDeep (d : Disk) (foldersOnly : Bool) (folder : String) : Nat → List String
  | 0 => []
  | depth + 1 =>
    (d.list folder foldersOnly).flatMap fun name =>
      if isHidden name then []
      else name :: (listDeep d foldersOnly (belowAny folder name) depth).map (belowAny name)

def findName (d : Disk) (foldersOnly : Bool) (folder name : String) : List String :=
  if name == "**" then
    (if folder.isEmpty || d.isFolder folder then [""] else []) ++
      listDeep d foldersOnly folder (d.entries.length + 1)
  else if Wildcard.isWild name then
    (d.list folder foldersOnly).filter fun n =>
      (isHidden name || !isHidden n) && Wildcard.accepts name n
  else if name.isEmpty then (if d.isFolder folder then [""] else [])
  else if d.has (belowAny folder name) then [name] else []

def findFrom (d : Disk) (foldersOnly : Bool) (pattern : String) : Nat → List String
  | 0 => []
  | fuel + 1 =>
    let (head, tail) := cutLast pattern.toList
    let folder := String.ofList head
    let name := String.ofList tail
    if !Wildcard.isWild pattern then
      if name.isEmpty then (if d.isFolder folder then [pattern] else [])
      else if d.has pattern then [pattern] else []
    else if folder.isEmpty then findName d foldersOnly "" name
    else
      let folders := if folder != pattern && Wildcard.isWild folder
        then findFrom d true folder fuel else [folder]
      folders.flatMap fun f => (findName d foldersOnly f name).map (below f)

def find (d : Disk) (pattern : String) : List String :=
  let found := findFrom d false pattern (pattern.length + 1)
  if pattern.isEmpty || ['*', '*'].isPrefixOf pattern.toList then
    match found with
    | "" :: rest => rest
    | found => found
  else found

/-! ## Listing -/

inductive PatternFault where
  | empty
  | absolute
  | partialStars
deriving Repr, DecidableEq

def PatternFault.message : PatternFault → String
  | .empty => "Unacceptable pattern: ''"
  | .absolute => "Non-relative patterns are unsupported"
  | .partialStars => "Invalid pattern: '**' can only be an entire path component"

def folders (d : Disk) (p : Path) : Nat → List Path
  | 0 => []
  | depth + 1 =>
    p :: (d.list p.text true).flatMap fun name => folders d { p with parts := p.parts ++ [name] } depth

def select (d : Disk) (p : Path) : List String → List Path
  | [] => [p]
  | name :: rest =>
    let foldersOnly := !rest.isEmpty
    if name.isEmpty then [p]
    else if name == "**" then
      ((d.folders p (d.entries.length + 1)).flatMap fun q => select d q rest).eraseDups
    else if Wildcard.isWild name then
      (d.list p.text foldersOnly).flatMap fun n =>
        if Wildcard.accepts name n then select d { p with parts := p.parts ++ [n] } rest else []
    else
      let q : Path := { p with parts := p.parts ++ [name] }
      if if foldersOnly then d.isFolder q.text else d.has q.text then select d q rest else []

def patternNames (pattern : String) : Except PatternFault (List String) :=
  let p := Path.ofText pattern
  let names := if pattern.toList.getLast? = some '/' then p.parts ++ [""] else p.parts
  if p.isAbsolute then .error .absolute
  else if (names.takeWhile (· != "")).any fun n => n != "**" && contains ['*', '*'] n.toList then
    .error .partialStars
  else .ok names

/-- The paths in a folder, or below it if `deep`, that fit a pattern of names. -/
def listAll (d : Disk) (folder : Path) (deep : Bool) (pattern : String) : Except PatternFault (List Path) := do
  if pattern.isEmpty && !deep then .error .empty
  else
    let names ← patternNames pattern
    if d.isFolder folder.text then return d.select folder (if deep then "**" :: names else names)
    else return []

def expand (d : Disk) (input pattern : String) : Except PatternFault (List String) := do
  let path := Path.ofText input
  let wild := input.toList.contains '*'
  let deep := contains ['*', '*'] input.toList
  let found ← d.listAll (if wild then path.wildcardBase else path) deep pattern
  return sortTexts (found.map (·.text))

def baseFolder (d : Disk) (input : String) : Path :=
  let path := Path.ofText input
  Path.resolve d.folder (if input.toList.contains '*' then path.wildcardBase else path)

end Transclude.Disk
