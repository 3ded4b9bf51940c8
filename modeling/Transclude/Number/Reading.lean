import Transclude.Number.Binary64
import Transclude.Text.Blank
import Transclude.Text.Digit
import Transclude.Text.Case

/-!
# Reading numbers

In a number blanks around it are passed over, digits may be of any script, and an underscore may stand between two
digits. An integer of more than `maxDigits` digits is refused.
-/

namespace Transclude.Number

open Transclude.Text

def maxDigits : Nat := 4300

def isNumberBlank (c : Char) : Bool :=
  isBlank c && !(0x1c ≤ c.toNat && c.toNat ≤ 0x1f)

def trimNumber (cs : List Char) : List Char :=
  ((cs.dropWhile isNumberBlank).reverse.dropWhile isNumberBlank).reverse

def plainDigits (cs : List Char) : List Char :=
  cs.map fun c =>
    match digitValue? c with
    | some n => Char.ofNat (48 + n)
    | none => c

def dropUnderscores? (before : Option Char) : List Char → Option (List Char)
  | [] => some []
  | '_' :: rest =>
    if before.any Char.isDigit && rest.head?.any Char.isDigit then
      dropUnderscores? (some '_') rest
    else none
  | c :: rest => (dropUnderscores? (some c) rest).map (c :: ·)

def readSign : List Char → Bool × List Char
  | '-' :: rest => (true, rest)
  | '+' :: rest => (false, rest)
  | cs => (false, cs)

inductive IntFault where
  | malformed
  | tooLong (digits : Nat)
deriving Repr, DecidableEq

def readInt (s : String) : Except IntFault Int :=
  let (negative, body) := readSign (plainDigits (trimNumber s.toList))
  match dropUnderscores? none body with
  | none => .error .malformed
  | some digits =>
    if digits.isEmpty || !digits.all Char.isDigit then .error .malformed
    else if digits.length > maxDigits then .error (.tooLong digits.length)
    else
      let n : Int := digitsValue digits
      .ok (if negative then -n else n)

def spanDigits (cs : List Char) : List Char × List Char :=
  (cs.takeWhile Char.isDigit, cs.dropWhile Char.isDigit)

def readExponent : List Char → Option Int
  | [] => some 0
  | c :: rest =>
    if c == 'e' || c == 'E' then
      let (negative, digits) := readSign rest
      if digits.isEmpty || !digits.all Char.isDigit then none
      else
        let n : Int := digitsValue digits
        some (if negative then -n else n)
    else none

/-- The number nearest to `digits * 10 ^ exponent`; exponents that are far out are not computed in full. -/
def ofDecimal (negative : Bool) (digits : Nat) (exponent : Int) : Binary64 :=
  if digits = 0 then .zero negative
  else
    let lead : Int := exponent + (decimalLength digits : Int)
    if lead > 400 then .infinite negative
    else if lead < -400 then .zero negative
    else if exponent ≥ 0 then .ofRatio negative (digits * Nat.pow 10 exponent.toNat) 1
    else .ofRatio negative digits (Nat.pow 10 (-exponent).toNat)

def readUnsigned (negative : Bool) (cs : List Char) : Option Binary64 :=
  let (whole, rest) := spanDigits cs
  let (fraction, rest) :=
    match rest with
    | '.' :: rest => spanDigits rest
    | _ => ([], rest)
  if whole.isEmpty && fraction.isEmpty then none
  else do
    let e ← readExponent rest
    return ofDecimal negative (digitsValue (whole ++ fraction)) (e - (fraction.length : Nat))

def readFloat (s : String) : Option Binary64 :=
  let (negative, body) := readSign (plainDigits (trimNumber s.toList))
  let word := String.ofList (body.map Char.toLower)
  if word == "inf" || word == "infinity" then some (.infinite negative)
  else if word == "nan" then some (.nan negative)
  else
    match dropUnderscores? none body with
    | none => none
    | some digits => readUnsigned negative digits

end Transclude.Number
