import Transclude.Config.Amount
import Transclude.Crash
import Transclude.Status

/-!
# The file cache

The cache keeps texts of files, the most recently used first, up to a number of characters in all. A text that is let
go leaves its path, and is read again when it is asked for. Only paths that are allowed are read or written.
-/

namespace Transclude

structure Cache where
  maxFile : Amount
  limit : Int
  allowed : List String
  overwrites : Bool
  entries : List (String × Option String)
  memory : Nat

namespace Cache

inductive Event where
  | hit (path : String)
  | miss (path : String)
  | eviction (path : String)
deriving Repr, BEq, DecidableEq

def make (maxFile limit : Amount) (allowed : List String) (overwrites : Bool) : Except Crash Cache :=
  if maxFile.value < limit.value then
    .ok { maxFile, limit := limit.value, allowed, overwrites, entries := [], memory := 0 }
  else
    .error (.broken
      s!"memory_limit ({limit.text}) must be greater than max_file_size ({maxFile.text})")

/-! ## Allowed paths -/

def isAllowed (folder : Path) (allowed : List String) (path : String) : Bool :=
  let resolved := Path.resolve folder (.ofText path)
  allowed.any fun a =>
    let base := Path.resolve folder (.ofText a)
    (base.below? resolved).isSome || Wildcard.accepts base.text resolved.text

inductive Refusal where
  | forbidden (path : String)
  | missing (path : String)
  | tooLarge (size : Nat) (limit : Amount) (path : String)
deriving Repr, DecidableEq

def Refusal.status : Refusal → Status
  | .forbidden path => { level := .fatal, text := s!"path is not in allowed paths: '{path}'" }
  | .missing path => .error s!"file does not exist: '{path}'"
  | .tooLarge size limit path => .error s!"file exceeds max size ({size} > {limit.text}): '{path}'"

def refusal? (c : Cache) (d : Disk) (path : String) : Option Refusal :=
  let shown := Path.shorten d.folder path
  if !isAllowed d.folder c.allowed path then some (.forbidden shown)
  else if !d.isFile path then some (.missing shown)
  else if (d.size path : Int) > c.maxFile.value then some (.tooLarge (d.size path) c.maxFile shown)
  else none

def validate (c : Cache) (d : Disk) (path : String) : Except Crash (List Status) :=
  if (c.entries.lookup path).isSome then .ok []
  else if Path.hasNull path then .error .nullInPath
  else .ok ((c.refusal? d path).toList.map (·.status))

/-! ## Making room -/

/-- Lets texts go until there is room for `needed` more characters; the least recently used entry is first. -/
def unload (limit : Int) (needed memory : Nat) :
    List (String × Option String) → List (String × Option String) × Nat × List Event
  | [] => ([], memory, [])
  | (path, text) :: rest =>
    if (memory + needed : Int) > limit then
      match text with
      | some s =>
        let (rest, memory, events) := unload limit needed (memory - s.length) rest
        ((path, none) :: rest, memory, .eviction path :: events)
      | none =>
        let (rest, memory, events) := unload limit needed memory rest
        ((path, none) :: rest, memory, events)
    else ((path, text) :: rest, memory, [])

/-- The cache with room for `needed` more characters, if it can be made. -/
def makeRoom (c : Cache) (needed : Nat) : Cache × List Event :=
  let (entries, memory, events) := unload c.limit needed c.memory c.entries.reverse
  ({ c with entries := entries.reverse, memory }, events)

def toFront (c : Cache) (path text : String) : Cache :=
  { c with entries := (path, some text) :: c.entries.filter (·.1 != path) }

def take (c : Cache) (path text : String) : Cache × List Event :=
  let (c, events) := c.makeRoom text.length
  let c := c.toFront path text
  ({ c with memory := c.memory + text.length }, events)

/-! ## Reading and writing -/

structure Reply (α : Type) where
  value : Option α
  errors : List Status
  cache : Cache
  events : List Event

def get (c : Cache) (d : Disk) (path : String) : Except Crash (Reply String) :=
  match c.entries.lookup path with
  | some (some text) =>
    .ok { value := some text, errors := [], cache := c.toFront path text, events := [.hit path] }
  | found => do
    let errors ← if found.isSome then .ok [] else c.validate d path
    if errors.isEmpty then
      let text ← (d.text (Path.ofText path).text).mapError .disk
      let (cache, events) := c.take path text
      return { value := some text, errors := [], cache, events := events ++ [.miss path] }
    else return { value := none, errors, cache := c, events := [] }

def freePath (d : Disk) (p : Path) (n : Nat) : Nat → Path
  | 0 => p
  | fuel + 1 =>
    let name := s!"{p.stem}.{n}{p.extension}"
    let candidate := p.parent.join { root := "", parts := [name] }
    if d.has candidate.text then freePath d p (n + 1) fuel else candidate

def target (c : Cache) (d : Disk) (path : String) : String :=
  if d.isFile path && !c.overwrites then
    (freePath d (.ofText path) 0 (d.entries.length + 1)).text
  else path

def write (c : Cache) (d : Disk) (path text : String) : Except Crash (Disk × Reply String) := do
  if Path.hasNull path then .error .nullInPath
  else if isAllowed d.folder c.allowed path then
    let actual := c.target d path
    let d ← (d.writeText (Path.ofText actual).text text).mapError .disk
    let (cache, events) := c.take actual text
    return (d, { value := some actual, errors := [], cache, events })
  else
    let refusal := Refusal.forbidden (Path.shorten d.folder path)
    return (d, { value := none, errors := [refusal.status], cache := c, events := [] })

inductive Presence where
  | absent
  | loaded
  | unloaded
deriving Repr, BEq, DecidableEq

def presence (c : Cache) (path : String) : Presence :=
  match c.entries.lookup path with
  | none => .absent
  | some none => .unloaded
  | some (some _) => .loaded

def find (c : Cache) (d : Disk) (pattern : String) : List String × List Status :=
  let found := (d.find pattern).map fun p => (Path.resolve d.folder (.ofText p)).text
  let (good, bad) := found.partition (isAllowed d.folder c.allowed)
  (good, bad.map fun p =>
    .error s!"matched file is not in allowed paths: '{Path.shorten d.folder p}'")

end Cache

end Transclude
