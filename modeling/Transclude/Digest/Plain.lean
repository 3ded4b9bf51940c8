import Transclude.Text.Blank
import Transclude.Text.Digit
import Transclude.Text.Lines
import Transclude.Text.Word

/-!
# The plain text of a Markdown document

`plainText` takes away what would disturb a summary: code, tables and the marks of Markdown. Each of these is a
`Rule`; `replaceBy` applies a rule from left to right, never inside what it has replaced.
-/

namespace Transclude.Digest

open Transclude.Text

/-- What stands for the text at a place, and for how many characters; the character before the place is seen. -/
abbrev Rule := Option Char → List Char → Option (List Char × Nat)

/-- The text with a rule applied; the next `skip` characters have been replaced. -/
def replaceFrom (rule : Rule) : Nat → Option Char → List Char → List Char
  | _, _, [] => []
  | skip + 1, _, c :: cs => replaceFrom rule skip (some c) cs
  | 0, before, c :: cs =>
    match rule before (c :: cs) with
    | some (new, n + 1) => new ++ replaceFrom rule n (some c) cs
    | _ => c :: replaceFrom rule 0 (some c) cs

def replaceBy (rule : Rule) (cs : List Char) : List Char :=
  replaceFrom rule 0 none cs

def startsLine (before : Option Char) : Bool :=
  before.all (· == '\n')

def runLength (p : Char → Bool) (cs : List Char) : Nat :=
  (cs.takeWhile p).length

def isGrave (c : Char) : Bool :=
  c.toNat == 96

def gravesAt? : Nat → List Char → Option Nat
  | _, [] => none
  | n, c :: cs => if runLength isGrave (c :: cs) ≥ 3 then some n else gravesAt? (n + 1) cs

def codeBlock : Rule := fun _ cs =>
  let opening := runLength isGrave cs
  if opening < 3 then none
  else
    let after := cs.drop opening
    match gravesAt? 0 after with
    | some n => some ([], opening + n + runLength isGrave (after.drop n))
    | none => if opening ≥ 6 then some ([], opening) else none

def quoteMark : Rule := fun before cs =>
  match cs with
  | '>' :: rest =>
    if startsLine before then some ([], if rest.head?.any isBlank then 2 else 1) else none
  | _ => none

def headingMark : Rule := fun before cs =>
  let marks := runLength (· == '#') cs
  let blanks := runLength isBlank (cs.drop marks)
  if startsLine before && 1 ≤ marks && marks ≤ 6 && 0 < blanks then some ([], marks + blanks) else none

def starAt? : Nat → List Char → Option Nat
  | _, [] => none
  | n, c :: cs => if c == '*' then some n else if c == '\n' then none else starAt? (n + 1) cs

def starEmphasis : Rule := fun _ cs =>
  let opening := min 3 (runLength (· == '*') cs)
  if opening = 0 then none
  else
    let after := cs.drop opening
    match starAt? 0 after with
    | some n => some (after.take n, opening + n + min 3 (runLength (· == '*') (after.drop n)))
    | none => if opening ≥ 2 then some ([], opening) else none

def underscoreAt? : Nat → List Char → Option Nat
  | _, [] => none
  | n, c :: cs =>
    let marks := runLength (· == '_') (c :: cs)
    if 1 ≤ marks && marks ≤ 3 && !((c :: cs).drop marks).head?.any isWord then some n
    else if c == '\n' then none
    else underscoreAt? (n + 1) cs

def underscoreEmphasis : Rule := fun before cs =>
  let marks := min 3 (runLength (· == '_') cs)
  if before.any isWord then none
  else
    [3, 2, 1].findSome? fun opening =>
      if opening ≤ marks then
        let after := cs.drop opening
        (underscoreAt? 0 after).map fun n =>
          (after.take n, opening + n + runLength (· == '_') (after.drop n))
      else none

def bracketed? (opens closes : Char) : List Char → Option (List Char × List Char)
  | c :: cs =>
    if c == opens then
      let inside := cs.takeWhile (· != closes)
      match cs.drop inside.length with
      | _ :: rest => some (inside, rest)
      | [] => none
    else none
  | [] => none

def image : Rule := fun _ cs =>
  match cs with
  | '!' :: rest => do
    let (alt, rest) ← bracketed? '[' ']' rest
    let (target, _) ← bracketed? '(' ')' rest
    return ([], alt.length + target.length + 5)
  | _ => none

def link : Rule := fun _ cs => do
  let (text, rest) ← bracketed? '[' ']' cs
  let (target, _) ← bracketed? '(' ')' rest
  if text.isEmpty || target.isEmpty then none else some (text, text.length + target.length + 4)

def bulletMark : Rule := fun before cs =>
  let blanks := runLength isBlank cs
  match cs.drop blanks with
  | c :: rest =>
    let after := runLength isBlank rest
    if startsLine before && (c == '-' || c == '*' || c == '+') && 0 < after then
      some ([], blanks + 1 + after)
    else none
  | [] => none

def numberMark : Rule := fun before cs =>
  let blanks := runLength isBlank cs
  let digits := runLength isDecimal (cs.drop blanks)
  match cs.drop (blanks + digits) with
  | '.' :: rest =>
    let after := runLength isBlank rest
    if startsLine before && 0 < digits && 0 < after then some ([], blanks + digits + 1 + after)
    else none
  | _ => none

def spaces : Rule := fun _ cs =>
  let n := runLength (fun c => c == ' ' || c == '\t') cs
  if 0 < n then some ([' '], n) else none

def dropTables (cs : List Char) : List Char :=
  joinWith ['\n'] ((splitLines cs).filter fun line => (trimStart line).head? != some '|')

def plainText (cs : List Char) : List Char :=
  let text := dropTables (replaceBy codeBlock cs)
  let rules : List Rule := [quoteMark, headingMark, starEmphasis, underscoreEmphasis, image, link,
    bulletMark, numberMark, spaces]
  trim (rules.foldl (fun text rule => replaceBy rule text) text)

end Transclude.Digest
