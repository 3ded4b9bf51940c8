/-!
# Sorting

A stable sort by binary insertion into the run at the start of the list that is in order already. The order only has to
say which of two elements is less, and need not be total.
-/

namespace Transclude.Sorting

variable {α : Type}

/-- The place for an element among the elements from `low` to `high`, found by halving. -/
def place (less : α → α → Bool) (x : α) (xs : List α) (low high : Nat) : Nat :=
  if low < high then
    let middle := low + (high - low) / 2
    match xs[middle]? with
    | some y => if less x y then place less x xs low middle else place less x xs (middle + 1) high
    | none => low
  else low
termination_by high - low

def insert (less : α → α → Bool) (xs : List α) (x : α) : List α :=
  let n := place less x xs 0 xs.length
  xs.take n ++ x :: xs.drop n

/-- The elements after `x` as long as `follows` holds between neighbours, and the rest. -/
def run (follows : α → α → Bool) (x : α) : List α → List α × List α
  | [] => ([], [])
  | y :: ys =>
    if follows x y then
      let (taken, rest) := run follows y ys
      (y :: taken, rest)
    else ([], y :: ys)

def ascending (less : α → α → Bool) (xs : List α) : List α :=
  match xs with
  | x :: y :: ys =>
    if less y x then
      let (falling, rest) := run (fun a b => less b a) x (y :: ys)
      rest.foldl (insert less) (x :: falling).reverse
    else
      let (rising, rest) := run (fun a b => !less b a) x (y :: ys)
      rest.foldl (insert less) (x :: rising)
  | xs => xs

def descending (less : α → α → Bool) (xs : List α) : List α :=
  (ascending less xs.reverse).reverse

end Transclude.Sorting
