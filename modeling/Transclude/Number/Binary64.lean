import Transclude.Number.Rounding

/-!
# Binary floating-point numbers of 64 bits

A finite number is a mantissa below `2 ^ 53` times two to an exponent from `-1074` to `971`. The mantissa is at least
`2 ^ 52` unless the exponent is the least one. Every operation rounds the exact quotient once (`ofRatio`), ties to even.
-/

namespace Transclude.Number

inductive Binary64 where
  | nan (negative : Bool)
  | infinite (negative : Bool)
  | finite (negative : Bool) (mantissa : Nat) (exponent : Int)
deriving Repr, DecidableEq, Inhabited

namespace Binary64

def zero (negative : Bool) : Binary64 :=
  .finite negative 0 (-1074)

/-- The number nearest to `num / den`; a quotient beyond the largest number is infinite. -/
def ofRatio (negative : Bool) (num den : Nat) : Binary64 :=
  if num = 0 then zero negative
  else
    let e := max (binaryExponent num den - 52) (-1074)
    let m := if e ≥ 0 then roundDiv num (den * Nat.pow 2 e.toNat)
      else roundDiv (num * Nat.pow 2 (-e).toNat) den
    let (m, e) := if m = Nat.pow 2 53 then (Nat.pow 2 52, e + 1) else (m, e)
    if e > 971 then .infinite negative else .finite negative m e

def ofInt (n : Int) : Binary64 :=
  ofRatio (n < 0) n.natAbs 1

def ratio (mantissa : Nat) (exponent : Int) : Nat × Nat :=
  if exponent ≥ 0 then (mantissa * Nat.pow 2 exponent.toNat, 1)
  else (mantissa, Nat.pow 2 (-exponent).toNat)

def isNegative : Binary64 → Bool
  | .nan s => s
  | .infinite s => s
  | .finite s _ _ => s

def isZero : Binary64 → Bool
  | .finite _ 0 _ => true
  | _ => false

def neg : Binary64 → Binary64
  | .nan s => .nan !s
  | .infinite s => .infinite !s
  | .finite s m e => .finite (!s) m e

def toBits : Binary64 → Nat
  | .nan s => (if s then Nat.pow 2 63 else 0) + 0x7ff8000000000000
  | .infinite s => (if s then Nat.pow 2 63 else 0) + 0x7ff0000000000000
  | .finite s m e =>
    (if s then Nat.pow 2 63 else 0) +
      (if m < Nat.pow 2 52 then m else (e + 1075).toNat * Nat.pow 2 52 + (m - Nat.pow 2 52))

/-- The numerator of a finite number over the common denominator `2 ^ 1074`. -/
def scaled (negative : Bool) (mantissa : Nat) (exponent : Int) : Int :=
  let n : Int := mantissa * Nat.pow 2 (exponent + 1074).toNat
  if negative then -n else n

def compare? : Binary64 → Binary64 → Option Ordering
  | .nan _, _ => none
  | _, .nan _ => none
  | .infinite s, .infinite t => some (Ord.compare t.toNat s.toNat)
  | .infinite s, _ => some (if s then .lt else .gt)
  | _, .infinite t => some (if t then .gt else .lt)
  | .finite s m e, .finite t n f => some (Ord.compare (scaled s m e) (scaled t n f))

def lt (a b : Binary64) : Bool :=
  compare? a b == some .lt

def le (a b : Binary64) : Bool :=
  compare? a b == some .lt || compare? a b == some .eq

def eq (a b : Binary64) : Bool :=
  compare? a b == some .eq

def mul : Binary64 → Binary64 → Binary64
  | .finite s m e, .finite t n f =>
    let (a, b) := ratio m e
    let (c, d) := ratio n f
    ofRatio (s != t) (a * c) (b * d)
  | .nan s, _ => .nan s
  | _, .nan s => .nan s
  | .infinite s, y => if y.isZero then .nan true else .infinite (s != y.isNegative)
  | x, .infinite t => if x.isZero then .nan true else .infinite (x.isNegative != t)

def div : Binary64 → Binary64 → Binary64
  | .finite s m e, .finite t n f =>
    if n = 0 then (if m = 0 then .nan true else .infinite (s != t))
    else
      let (a, b) := ratio m e
      let (c, d) := ratio n f
      ofRatio (s != t) (a * d) (b * c)
  | .nan s, _ => .nan s
  | _, .nan s => .nan s
  | .infinite _, .infinite _ => .nan true
  | .infinite s, y => .infinite (s != y.isNegative)
  | x, .infinite t => zero (x.isNegative != t)

def add : Binary64 → Binary64 → Binary64
  | .finite s m e, .finite t n f =>
    let sum := scaled s m e + scaled t n f
    if sum = 0 then zero (s && t) else ofRatio (sum < 0) sum.natAbs (Nat.pow 2 1074)
  | .nan s, _ => .nan s
  | _, .nan s => .nan s
  | .infinite s, .infinite t => if s == t then .infinite s else .nan true
  | .infinite s, _ => .infinite s
  | _, .infinite t => .infinite t

def sub (a b : Binary64) : Binary64 :=
  add a b.neg

def ofQuotient (num den : Nat) : Binary64 :=
  div (ofRatio false num 1) (ofRatio false den 1)

def truncate? : Binary64 → Option Int
  | .finite s m e =>
    let (a, b) := ratio m e
    let n : Int := a / b
    some (if s then -n else n)
  | _ => none

end Binary64

end Transclude.Number
