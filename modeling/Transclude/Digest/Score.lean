import Transclude.Digest.Sentence
import Transclude.Digest.StopWord
import Transclude.Number.Binary64

/-!
# Scores of sentences

A sentence scores by the words that it shares with the others (`frequencyScores`), by its densest cluster of
significant words (`clusterScores`), or by the words of a question (`recallScores`).
-/

namespace Transclude.Digest

open Transclude.Number

def countWords (words : List String) : List (String × Nat) :=
  words.foldl add []
where
  add (counts : List (String × Nat)) (w : String) : List (String × Nat) :=
    match counts with
    | [] => [(w, 1)]
    | (v, n) :: rest => if v == w then (v, n + 1) :: rest else (v, n) :: add rest w

def wordCounts (stops : List String) (tokenized : List (List String)) : List (String × Nat) :=
  countWords (tokenized.flatten.filter (!stops.contains ·))

def frequencyScore (stops : List String) (counts : List (String × Nat)) (words : List String) : Binary64 :=
  if words.isEmpty then .zero false
  else
    let counted := words.filter (!stops.contains ·)
    .ofQuotient (counted.foldl (fun n w => n + (counts.lookup w).getD 0) 0) words.length

def frequencyScores (stops : List String) (tokenized : List (List String)) : List Binary64 :=
  let counts := wordCounts stops tokenized
  tokenized.map (frequencyScore stops counts)

def significantWords (counts : List (String × Nat)) : List String :=
  let average := Binary64.ofQuotient (counts.foldl (fun n c => n + c.2) 0) counts.length
  (counts.filter fun c => average.lt (.ofInt c.2)).map (·.1)

def clusterGap : Nat := 5

/-- The number of words of the cluster that begins at place `here`, and its last place. -/
def cluster (here : Nat) : List Nat → Nat × Nat
  | [] => (1, here)
  | next :: rest =>
    if next - here - 1 ≤ clusterGap then
      let (n, last) := cluster next rest
      (n + 1, last)
    else (1, here)

def bestCluster (best : Binary64) : List Nat → Binary64
  | [] => best
  | here :: rest =>
    let (n, last) := cluster here rest
    let score := Binary64.ofQuotient (n * n) (last - here + 1)
    bestCluster (if best.lt score then score else best) rest

def placesOf (p : String → Bool) (n : Nat) : List String → List Nat
  | [] => []
  | w :: rest => if p w then n :: placesOf p (n + 1) rest else placesOf p (n + 1) rest

def clusterScores (stops : List String) (tokenized : List (List String)) : List Binary64 :=
  let significant := significantWords (wordCounts stops tokenized)
  tokenized.map fun words => bestCluster (.zero false) (placesOf significant.contains 0 words)

def questionWords (stops : List String) (question : List Char) : List String :=
  ((words question).filter (!stops.contains ·)).eraseDups

def recallScores (question : List String) (tokenized : List (List String)) : List Binary64 :=
  tokenized.map fun words =>
    if question.isEmpty then .zero false
    else .ofQuotient (question.filter words.contains).length question.length

def weighted (scores : List Binary64) (blockNumbers : List Nat) : List Binary64 :=
  scores.zipWith
    (fun score n => score.mul ((Binary64.ofInt 1).div (.ofInt (1 + n)))) blockNumbers

/-! ## Selecting the best -/

def ranksBefore {σ : Type} (less : σ → σ → Bool) (a b : σ × Nat) : Bool :=
  less b.1 a.1 || (!less a.1 b.1 && a.2 ≤ b.2)

/-- The first `k` elements; for a negative `k` all but the last `-k`. -/
def takeFirst {α : Type} (k : Int) (xs : List α) : List α :=
  if k < 0 then xs.take (xs.length - k.natAbs) else xs.take k.toNat

/-- The places of the `k` best scores, in increasing order. -/
def selectTop {σ : Type} (less : σ → σ → Bool) (k : Int) (scored : List (σ × Nat)) : List Nat :=
  ((takeFirst k (scored.mergeSort (ranksBefore less))).map (·.2)).mergeSort (· ≤ ·)

def selectBest (k : Int) (scores : List Binary64) : List Nat :=
  selectTop Binary64.lt k scores.zipIdx

end Transclude.Digest
