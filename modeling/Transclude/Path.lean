import Transclude.Text.Lines

/-!
# Paths

Reading a path drops empty names and the name `.`, but keeps `..`, which only `resolve` takes away. Two slashes at the
start are a root of their own.
-/

namespace Transclude

structure Path where
  root : String
  parts : List String
deriving Repr, BEq, DecidableEq, Inhabited

namespace Path

def ofText (s : String) : Path :=
  let cs := s.toList
  let slashes := (cs.takeWhile (· == '/')).length
  let root := if slashes = 0 then "" else if slashes = 2 then "//" else "/"
  let parts := (Text.splitAt '/' cs).map String.ofList
  { root, parts := parts.filter fun p => p != "" && p != "." }

def text (p : Path) : String :=
  let body := p.root ++ "/".intercalate p.parts
  if body == "" then "." else body

def isAbsolute (p : Path) : Bool :=
  p.root != ""

def join (p q : Path) : Path :=
  if q.isAbsolute then q else { p with parts := p.parts ++ q.parts }

def parent (p : Path) : Path :=
  { p with parts := p.parts.dropLast }

def name (p : Path) : String :=
  p.parts.getLast?.getD ""

def extensionPlace? (name : List Char) : Option Nat :=
  let tail := name.reverse.takeWhile (· != '.')
  let place := name.length - tail.length - 1
  if tail.length < name.length && 0 < tail.length && 0 < place then some place else none

def extension (p : Path) : String :=
  match extensionPlace? p.name.toList with
  | some n => String.ofList (p.name.toList.drop n)
  | none => ""

def stem (p : Path) : String :=
  match extensionPlace? p.name.toList with
  | some n => String.ofList (p.name.toList.take n)
  | none => p.name

def hasNull (s : String) : Bool :=
  s.toList.contains (Char.ofNat 0)

/-- The names with every `..` taken away together with the name before it; `above` are the names before, reversed. -/
def collapse (above : List String) : List String → List String
  | [] => above.reverse
  | ".." :: rest => collapse (above.drop 1) rest
  | p :: rest => collapse (p :: above) rest

/-- The absolute path without `..` that a path means in a folder. -/
def resolve (folder p : Path) : Path :=
  { root := "/", parts := collapse [] (folder.join p).parts }

def below? (base p : Path) : Option Path :=
  if p.root == base.root && base.parts.isPrefixOf p.parts then
    some { root := "", parts := p.parts.drop base.parts.length }
  else none

def commonLength : List String → List String → Nat
  | a :: as, b :: bs => if a == b then commonLength as bs + 1 else 0
  | _, _ => 0

def relativeFrom (start p : Path) : Path :=
  let shared := commonLength start.parts p.parts
  { root := "",
    parts := List.replicate (start.parts.length - shared) ".." ++ p.parts.drop shared }

def shorten (folder : Path) (s : String) : String :=
  match below? folder (ofText s) with
  | some rest => rest.text
  | none => s

def wildcardBase (p : Path) : Path :=
  let fixed := p.parts.takeWhile fun part => !part.toList.contains '*'
  { p with parts := fixed }

end Path

end Transclude
