import Transclude.Digest.Plain
import Transclude.Text.Case

/-!
# Blocks, sentences and words

A plain text is cut into blocks at blank lines, blocks into sentences of at least three words, and sentences into words
of the letters `a` to `z`.
-/

namespace Transclude.Digest

open Transclude.Text

def wordRuns (current : List Char) : List Char → List (List Char)
  | [] => if current.isEmpty then [] else [current.reverse]
  | c :: cs =>
    if isWord c then wordRuns (c :: current) cs
    else if current.isEmpty then wordRuns [] cs
    else current.reverse :: wordRuns [] cs

def words (cs : List Char) : List String :=
  ((wordRuns [] (lowerChars cs)).filter fun w => w.all fun c => 'a' ≤ c && c ≤ 'z').map String.ofList

def minWords : Nat := 3

abbrev Cut := Option Char → List Char → Nat

/-- The pieces of a text between cuts; the next `skip` characters separate, and `current` is the piece in work,
reversed. -/
def piecesFrom (cut : Cut) : Nat → Option Char → List Char → List Char → List (List Char)
  | _, _, current, [] => [current.reverse]
  | skip + 1, _, current, c :: cs => piecesFrom cut skip (some c) current cs
  | 0, before, current, c :: cs =>
    match cut before (c :: cs) with
    | n + 1 => current.reverse :: piecesFrom cut n (some c) [] cs
    | 0 => piecesFrom cut 0 (some c) (c :: current) cs

def sentenceCut : Cut := fun before cs =>
  let blanks := runLength isBlank cs
  if before.any (fun c => c == '.' || c == '!' || c == '?') && 0 < blanks then blanks
  else runLength (· == '\n') cs

def blockCut : Cut := fun _ cs =>
  let feeds := runLength (· == '\n') cs
  if 2 ≤ feeds then feeds else 0

def sentences (block : List Char) : List (List Char) :=
  ((piecesFrom sentenceCut 0 none [] block).filter fun s => minWords ≤ (words s).length).map trim

/-- The first `limit` blocks of a plain text that have sentences, all of them for a limit of zero. -/
def blocks (limit : Int) (cs : List Char) : List (List (List Char)) :=
  let all := piecesFrom blockCut 0 none [] cs
  let counted := if 0 < limit then all.take limit.toNat else all
  (counted.map sentences).filter (!·.isEmpty)

def numbered {α : Type} (n : Nat) : List (List α) → List (α × Nat)
  | [] => []
  | block :: rest => block.map (·, n) ++ numbered (n + 1) rest

end Transclude.Digest
