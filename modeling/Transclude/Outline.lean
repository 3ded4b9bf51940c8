import Transclude.Directive.Basic
import Transclude.Text.Blank
import Transclude.Text.Case
import Transclude.Text.Lines
import Transclude.Text.Word

/-!
# Outlines

An outline lists the headings of a document outside of fenced code (`Fence.step`). Every heading has an anchor (`slug`);
one whose anchor was used before gets a number.
-/

namespace Transclude.Outline

open Transclude.Text

/-! ## Fenced code -/

structure Fence where
  inside : Bool
  marker : List Char
deriving Repr, BEq, DecidableEq

def Fence.start : Fence :=
  { inside := false, marker := [] }

def grave : Char := Char.ofNat 96

def stripGraves (cs : List Char) : List Char :=
  ((cs.dropWhile (· == grave)).reverse.dropWhile (· == grave)).reverse

def Fence.step (f : Fence) (line : List Char) : Bool × Fence :=
  let text := trim line
  let marks := text.takeWhile (· == grave)
  if marks.length < 3 then (false, f)
  else if !f.inside then (true, { inside := true, marker := marks })
  else if f.marker.isPrefixOf text && allBlank (stripGraves text) then (true, { f with inside := false })
  else (false, f)

def visibleLines (f : Fence) : List (List Char) → List (List Char)
  | [] => []
  | line :: rest =>
    let (isFence, f) := f.step line
    if isFence || f.inside then visibleLines f rest else line :: visibleLines f rest

/-! ## Headings -/

structure Heading where
  level : Nat
  text : List Char
deriving Repr, BEq, DecidableEq

def Heading.parse? (line : List Char) : Option Heading :=
  let marks := line.takeWhile (· == '#')
  let rest := line.drop marks.length
  let blanks := rest.takeWhile isBlank
  if 1 ≤ marks.length && marks.length ≤ 6 && 0 < blanks.length && 1 < rest.length then
    some { level := marks.length, text := trim rest }
  else none

def hyphenate (gap : Bool) : List Char → List Char
  | [] => []
  | c :: cs =>
    if isBlank c || c == '_' then if gap then hyphenate true cs else '-' :: hyphenate true cs
    else c :: hyphenate false cs

def stripHyphens (cs : List Char) : List Char :=
  ((cs.dropWhile (· == '-')).reverse.dropWhile (· == '-')).reverse

def slug (text : List Char) : List Char :=
  let kept := (trim (lowerChars text)).filter fun c => isWord c || isBlank c || c == '-'
  stripHyphens (hyphenate false kept)

abbrev Seen := List (List Char × Nat)

def anchor (seen : Seen) (text : List Char) : List Char × Seen :=
  let base := slug text
  match seen.lookup base with
  | some n => (base ++ '-' :: (toString (n + 1)).toList, (base, n + 1) :: seen)
  | none => (base, (base, 0) :: seen)

def outlineLine (withAnchors : Bool) (h : Heading) (anchor : List Char) : List Char :=
  let indent := List.replicate (2 * (h.level - 1)) ' '
  if withAnchors then indent ++ "- [".toList ++ h.text ++ "](#".toList ++ anchor ++ [')']
  else indent ++ "- ".toList ++ h.text

def outlineLines (withAnchors : Bool) (seen : Seen) : List Heading → List (List Char) × Seen
  | [] => ([], seen)
  | h :: rest =>
    let (a, seen) := anchor seen h.text
    let (lines, seen) := outlineLines withAnchors seen rest
    (outlineLine withAnchors h a :: lines, seen)

def headings (maxDepth : Int) (content : List Char) : List Heading :=
  ((visibleLines .start (splitAt '\n' (universalNewlines content))).filterMap Heading.parse?).filter
    fun h => (h.level : Int) ≤ maxDepth

def fragmentLines (withAnchors : Bool) (maxDepth : Int) (seen : Seen) : List Fragment → List (List Char)
  | [] => []
  | .text s :: rest =>
    let (lines, seen) := outlineLines withAnchors seen (headings maxDepth s.toList)
    lines ++ fragmentLines withAnchors maxDepth seen rest
  | _ :: rest => fragmentLines withAnchors maxDepth seen rest

def noHeadings : String := "> [!NOTE]\n> No headings found in document.\n"

def fragmentsFrom (start : Int) (fragments : List Fragment) : List Fragment :=
  if start < 0 then fragments.drop (fragments.length - start.natAbs) else fragments.drop start.toNat

def render (start maxDepth : Int) (withAnchors : Bool) (fragments : List Fragment) : String :=
  match fragmentLines withAnchors maxDepth [] (fragmentsFrom start fragments) with
  | [] => noHeadings
  | lines => String.ofList (joinWith ['\n'] lines) ++ "\n"

end Transclude.Outline
