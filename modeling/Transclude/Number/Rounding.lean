/-!
# Rounding a quotient

`roundDiv num den` is the natural number nearest to `num / den`; a quotient half way between two
numbers goes to the even one.
-/

namespace Transclude.Number

/-- The number nearest to `num / den`, the even one of two equally near. -/
def roundDiv (num den : Nat) : Nat :=
  let q := num / den
  let r := num % den
  if 2 * r > den || (2 * r == den && q % 2 == 1) then q + 1 else q

def decimalLength (n : Nat) : Nat :=
  (Nat.toDigits 10 n).length

/-- The power of ten of the first digit of `num / den`, for positive `num` and `den`. -/
def decimalExponent (num den : Nat) : Int :=
  let k : Int := decimalLength num - decimalLength den
  let reached := if k ≥ 0 then num ≥ den * Nat.pow 10 k.toNat else num * Nat.pow 10 (-k).toNat ≥ den
  if reached then k else k - 1

/-- The power of two of the first bit of `num / den`, for positive `num` and `den`. -/
def binaryExponent (num den : Nat) : Int :=
  let k : Int := (Nat.log2 num : Int) - Nat.log2 den
  let reached := if k ≥ 0 then num ≥ den * Nat.pow 2 k.toNat else num * Nat.pow 2 (-k).toNat ≥ den
  if reached then k else k - 1

end Transclude.Number
