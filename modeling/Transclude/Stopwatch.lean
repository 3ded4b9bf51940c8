import Transclude.Number.Binary64

/-!
# Stopwatches

A stopwatch gives the readings of a clock one after another.
-/

namespace Transclude

open Transclude.Number

structure Stopwatch where
  readings : List Binary64 := []

def Stopwatch.read (w : Stopwatch) : Binary64 × Stopwatch :=
  match w.readings with
  | [] => (.zero false, w)
  | [x] => (x, w)
  | x :: rest => (x, ⟨rest⟩)

end Transclude
