import Transclude.Text.Blank
import Transclude.Text.Case
import Transclude.Text.Lines

/-!
# Regions

A region is what stands between two marker lines. A marker is a comment with the words of a template, compared without
regard to case, and the name of the region, where the template says `{tag}`.
-/

namespace Transclude.Region

open Transclude.Text

def tagMark : List Char := "\x7btag\x7d".toList

def defaultStart : String := "md.start:\x7btag\x7d"

def defaultEnd : String := "md.end:\x7btag\x7d"

def commentOpeners : List (List Char) := [['#'], ['/', '/'], "<!--".toList, ['/', '*']]

def afterOpener? (cs : List Char) : Option (List Char) :=
  commentOpeners.findSome? (after? · cs)

def firstWord? (cs : List Char) : Option (List Char) :=
  match (trimStart cs).takeWhile (!isBlank ·) with
  | [] => none
  | word => some word

/-- The name in a marker whose comment has been opened: blanks, the words and the name. Words that
begin with blanks may match some of the blanks before them; the words are looked for as far to the
right as they can be. -/
def nameAfterWords? (words : List Char) : List Char → Option (List Char)
  | [] => (afterWords? words []).bind firstWord?
  | c :: cs =>
    let here := (afterWords? words (c :: cs)).bind firstWord?
    if isBlank c then (nameAfterWords? words cs).or here else here

def markerName? (template : List Char) (line : List Char) : Option (List Char) :=
  (afterOpener? (trimStart line)).bind (nameAfterWords? (upTo tagMark template))

def isMarker (template name line : List Char) : Bool :=
  markerName? template line == some name

def linesBefore? (template name : List Char) : List (List Char) → Option (List (List Char))
  | [] => none
  | line :: rest =>
    if isMarker template name line then some []
    else (linesBefore? template name rest).map (line :: ·)

def extractLines (startTemplate endTemplate name : List Char) (lines : List (List Char)) : Option (List (List Char)) :=
  match lines.dropWhile (!isMarker startTemplate name ·) with
  | [] => none
  | _ :: rest => linesBefore? endTemplate name rest

def extract (startTemplate endTemplate : String) (name : String) (content : List Char) : Option (List (List Char)) :=
  extractLines startTemplate.toList endTemplate.toList (trim name.toList) (lines content)

end Transclude.Region
