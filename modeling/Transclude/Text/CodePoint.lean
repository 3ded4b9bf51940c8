/-!
# Classes of code points

A class of characters is given by a list of closed ranges of code points. Long lists are written by the distances
between the ends of the ranges.
-/

namespace Transclude.Text

def within (ranges : List (Nat × Nat)) (c : Char) : Bool :=
  ranges.any fun r => r.1 ≤ c.toNat && c.toNat ≤ r.2

/-- The ranges that a list of distances stands for: how far a range begins after `last`, how far it ends after that, and
so on. -/
def rangesFrom (last : Nat) : List Nat → List (Nat × Nat)
  | gap :: length :: rest => (last + gap, last + gap + length) :: rangesFrom (last + gap + length) rest
  | _ => []

end Transclude.Text
