import Transclude.Number.Binary64

/-!
# Decimal text of floating-point numbers

`shortest` finds the fewest decimal digits that read back as a number. `Binary64.text` writes them: positional from
`1e-04` up to, and not including, `1e+16`, and in scientific notation elsewhere.
-/

namespace Transclude.Number

structure Decimal where
  digits : List Char
  exponent : Int
deriving Repr, DecidableEq

/-- The interval of reals that round to a number, over a common denominator: the number, its lower and its upper end.
-/
def roundingInterval (mantissa : Nat) (exponent : Int) : Nat × Nat × Nat × Nat :=
  let quarter := fun n : Nat =>
    if exponent ≥ 2 then n * Nat.pow 2 (exponent - 2).toNat else n
  let den := if exponent ≥ 2 then 1 else Nat.pow 2 (2 - exponent).toNat
  let low := if mantissa = Nat.pow 2 52 ∧ exponent > -1074 then 4 * mantissa - 1 else 4 * mantissa - 2
  (quarter (4 * mantissa), quarter low, quarter (4 * mantissa + 2), den)

/-- The multiple of `10 ^ step` next to the value that reads back as `value / den` and has the fewest digits. -/
def onGrid? (value low high den : Nat) (closed : Bool) (step : Int) : Option Nat :=
  let num := if step ≥ 0 then 1 else Nat.pow 10 (-step).toNat
  let unit := if step ≥ 0 then den * Nat.pow 10 step.toNat else den
  -- the grid point `k` is the real `k * unit / (num * den)`
  let floor := value * num / unit
  let inside := fun k : Nat =>
    let point := k * unit
    if closed then low * num ≤ point && point ≤ high * num else low * num < point && point < high * num
  let below := inside floor
  let above := inside (floor + 1)
  if below && above then
    let rest := 2 * (value * num - floor * unit)
    if rest < unit || (rest == unit && floor % 2 == 0) then some floor else some (floor + 1)
  else if below then some floor
  else if above then some (floor + 1)
  else none

def firstGrid (value low high den : Nat) (closed : Bool) (lead : Int) : Nat → Nat → Nat × Int
  | digits, fuel + 1 =>
    let step := lead - digits + 1
    match onGrid? value low high den closed step with
    | some k => (k, step)
    | none => firstGrid value low high den closed lead (digits + 1) fuel
  | digits, 0 => (value * Nat.pow 10 (digits - 1) / den, lead - digits + 1)

def dropZeros (cs : List Char) : List Char :=
  (cs.reverse.dropWhile (· == '0')).reverse

/-- The fewest digits that read back as the positive number `mantissa * 2 ^ exponent`. -/
def shortest (mantissa : Nat) (exponent : Int) : Decimal :=
  let (value, low, high, den) := roundingInterval mantissa exponent
  let lead := decimalExponent value den
  let (k, step) := firstGrid value low high den (mantissa % 2 == 0) lead 1 17
  let digits := Nat.toDigits 10 k
  { digits := dropZeros digits, exponent := step + (digits.length - 1 : Nat) }

def exponentText (e : Int) : List Char :=
  let digits := Nat.toDigits 10 e.natAbs
  (if e < 0 then '-' else '+') :: (if digits.length < 2 then '0' :: digits else digits)

def Decimal.positional (d : Decimal) : List Char :=
  if d.exponent < 0 then
    '0' :: '.' :: List.replicate (-d.exponent - 1).toNat '0' ++ d.digits
  else
    let whole := d.exponent.toNat + 1
    let front := d.digits.take whole
    let back := d.digits.drop whole
    front ++ List.replicate (whole - front.length) '0' ++ '.' :: (if back.isEmpty then ['0'] else back)

def Decimal.scientific (d : Decimal) : List Char :=
  match d.digits with
  | [] => ['0']
  | [c] => c :: 'e' :: exponentText d.exponent
  | c :: rest => c :: '.' :: rest ++ 'e' :: exponentText d.exponent

def Binary64.text : Binary64 → String
  | .nan _ => "nan"
  | .infinite s => if s then "-inf" else "inf"
  | .finite s m e =>
    let sign := if s then "-" else ""
    if m = 0 then sign ++ "0.0"
    else
      let d := shortest m e
      let body := if -4 ≤ d.exponent ∧ d.exponent < 16 then d.positional else d.scientific
      sign ++ String.ofList body

/-- A natural number as a decimal with `places` digits after the point. -/
def placed (places : Nat) (n : Nat) : List Char :=
  let digits := Nat.toDigits 10 n
  let digits := List.replicate (places + 1 - digits.length) '0' ++ digits
  let whole := digits.take (digits.length - places)
  if places = 0 then whole else whole ++ '.' :: digits.drop (digits.length - places)

def Binary64.fixed (places : Nat) : Binary64 → String
  | .nan _ => "nan"
  | .infinite s => if s then "-inf" else "inf"
  | .finite s m e =>
    let (num, den) := Binary64.ratio m e
    (if s then "-" else "") ++ String.ofList (placed places (roundDiv (num * Nat.pow 10 places) den))

def Binary64.roundTo (places : Nat) : Binary64 → Binary64
  | .finite s m e =>
    let (num, den) := Binary64.ratio m e
    .ofRatio s (roundDiv (num * Nat.pow 10 places) den) (Nat.pow 10 places)
  | x => x

end Transclude.Number
