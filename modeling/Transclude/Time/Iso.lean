import Transclude.Time.Calendar

/-!
# Dates and times in ISO form

`readMoment` reads a date, by month and day or by week, or a date and a time with one character between them. The text
is read as UTF-8 octets, each of them held as a character below 256.
-/

namespace Transclude.Time

def octets (s : String) : List Char :=
  s.toUTF8.toList.map fun b => Char.ofNat b.toNat

/-- The number written by exactly `n` digits, and the text after them. -/
def takeNumber? (n : Nat) (cs : List Char) : Option (Nat × List Char) :=
  let digits := cs.take n
  if digits.length = n && digits.all Char.isDigit then
    some (digits.foldl (fun v c => 10 * v + (c.toNat - 48)) 0, cs.drop n)
  else none

def dateLength? (cs : List Char) : Option Nat :=
  let at? := fun i => cs[i]?
  let size := cs.length
  if size < 7 then none
  else if size = 7 then some 7
  else if at? 4 == some '-' then
    if at? 5 == some 'W' then
      if at? 8 == some '-' then
        if size = 9 then none
        else if (at? 10).any Char.isDigit then some 8 else some 10
      else some 8
    else some 10
  else if at? 4 == some 'W' then
    let stop := 7 + ((cs.drop 7).takeWhile Char.isDigit).length
    if stop < 9 then some stop else if stop % 2 = 0 then some 7 else some 8
  else some 8

def readDate (cs : List Char) : Option Date := do
  let (year, rest) ← takeNumber? 4 cs
  let (dashed, rest) := match rest with
    | '-' :: rest => (true, rest)
    | rest => (false, rest)
  match rest with
  | 'W' :: rest =>
    let (week, rest) ← takeNumber? 2 rest
    if rest.isEmpty then Date.ofIsoWeek? year week 1
    else
      let rest ← if dashed then (match rest with
        | '-' :: rest => some rest
        | _ => none) else some rest
      let (day, _) ← takeNumber? 1 rest
      Date.ofIsoWeek? year week day
  | rest =>
    let (month, rest) ← takeNumber? 2 rest
    let rest ← if dashed then (match rest with
      | '-' :: rest => some rest
      | _ => none) else some rest
    let (day, rest) ← takeNumber? 2 rest
    if rest.isEmpty then (Date.ofYmd year month day).toOption else none

structure Reading where
  parts : List Nat
  micro : Nat
  complete : Bool

def readFraction (parts : List Nat) (cs : List Char) : Option Reading := do
  let width := min 6 cs.length
  let (n, rest) ← takeNumber? width cs
  return { parts, micro := n * Nat.pow 10 (6 - width), complete := (rest.dropWhile Char.isDigit).isEmpty }

/-- The parts of a time from its `parts.length`-th on. A lone character at the end leaves the time
incomplete, and after three parts, or a point or comma, the rest is a fraction. -/
def readParts (colons : Bool) (parts : List Nat) (cs : List Char) : Nat → Option Reading
  | 0 => readFraction parts cs
  | left + 1 => do
    let (n, rest) ← takeNumber? 2 cs
    let parts := parts ++ [n]
    match rest with
    | [] => return { parts, micro := 0, complete := true }
    | [_] => return { parts, micro := 0, complete := false }
    | c :: more =>
      let colons := if parts.length = 1 then c == ':' else colons
      if colons && c == ':' then readParts colons parts more left
      else if c == '.' || c == ',' then readFraction parts more
      else if !colons then readParts colons parts rest left
      else none

def splitOffset (cs : List Char) : List Char × List Char :=
  let isMark := fun c : Char => c == '+' || c == '-' || c == 'Z'
  (cs.takeWhile (!isMark ·), cs.dropWhile (!isMark ·))

def readOffset (complete : Bool) : List Char → Option (Option Int)
  | [] => if complete then some none else none
  | ['Z'] => some (some 0)
  | 'Z' :: _ => none
  | sign :: rest => do
    let r ← readParts true [] rest 3
    if !r.complete then none
    else
      let seconds := r.parts.getD 0 0 * 3600 + r.parts.getD 1 0 * 60 + r.parts.getD 2 0
      let n : Int := seconds * 1000000 + r.micro
      let offset ← (checkOffset (if sign == '-' then -n else n)).toOption
      return some offset

def octetCount (c : Char) : Nat :=
  if c.toNat < 0x80 then 1
  else if c.toNat / 16 = 14 then 3
  else if c.toNat / 16 = 15 then 4
  else 2

def readMoment (s : String) : Option Moment := do
  let cs := octets s
  let size ← dateLength? cs
  let date ← readDate (cs.take size)
  match cs.drop size with
  | [] => return { date, clock := ⟨0, 0, 0, 0⟩, offset := none }
  | [_] => none
  | sep :: more =>
    let (time, zone) := splitOffset ((sep :: more).drop (octetCount sep))
    let r ← readParts true [] time 3
    let offset ← readOffset r.complete zone
    let clock ←
      (Clock.ofParts (r.parts.getD 0 0) (r.parts.getD 1 0) (r.parts.getD 2 0) r.micro).toOption
    return { date, clock, offset }

end Transclude.Time
