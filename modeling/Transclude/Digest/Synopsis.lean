import Transclude.Crash
import Transclude.Digest.Score

/-!
# Synopses

A synopsis is made of the best sentences of a text; a recall of those that answer a question best. Both
are written as a quote in Markdown.
-/

namespace Transclude.Digest

open Transclude.Number

structure Request where
  maxSentences : Int := 3
  language : String := "en"
  sections : Int := 0

def Request.check (r : Request) : Except Crash Unit :=
  if r.maxSentences < 1 then .error (.broken "max_sentences must be >= 1")
  else if r.sections < 0 then .error (.broken "sections must be >= 0")
  else .ok ()

def Request.sentences (r : Request) (text : List Char) : List (List Char × Nat) :=
  numbered 0 (blocks r.sections (plainText text))

def Request.quote (r : Request) (sentences : List (List Char × Nat)) (scores : List Binary64) : String :=
  let best := selectBest r.maxSentences (weighted scores (sentences.map (·.2)))
  let texts := best.filterMap fun i => (sentences[i]?).map fun s => String.ofList s.1
  "> " ++ " ".intercalate texts ++ "\n"

def noSynopsis : String := "> [!NOTE]\n> No summary could be generated.\n"

def synopsis (r : Request) (algorithm : String) (text : List Char) : Except Crash String := do
  r.check
  let sentences := r.sentences text
  if sentences.isEmpty then return noSynopsis
  let tokenized := sentences.map fun s => words s.1
  let stops := stopWords r.language
  let scores := if algorithm == "luhn" then clusterScores stops tokenized
    else frequencyScores stops tokenized
  return r.quote sentences scores

def noRecall : String := "> [!NOTE]\n> No relevant content could be retrieved.\n"

def fallbackNote : String :=
  "> [!NOTE]\n> No sentences matched the query. Showing most representative sentences instead.\n\n"

def recollection (r : Request) (question text : List Char) : Except Crash String := do
  r.check
  let sentences := r.sentences text
  if sentences.isEmpty then return noRecall
  let tokenized := sentences.map fun s => words s.1
  let stops := stopWords r.language
  let scores := recallScores (questionWords stops question) tokenized
  if scores.all Binary64.isZero then
    return fallbackNote ++ r.quote sentences (frequencyScores stops tokenized)
  else return r.quote sentences scores

end Transclude.Digest
