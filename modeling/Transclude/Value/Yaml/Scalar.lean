import Transclude.Value.Yaml.Fault

/-!
# The scalars of YAML

Without a tag a plain text is classed by its form (`Tag.ofForm`): `yes` is a truth value, `0x1f`, `017` and `12:30`
are integers, `.5` is a float, `2024-01-15` is a date.
-/

namespace Transclude.Yaml

open Transclude.Number Transclude.Time

inductive Tag where
  | null
  | bool
  | int
  | float
  | timestamp
  | binary
  | str
  | merge
  | value
  | indicator
  | seq
  | map
  | set
  | orderedMap
  | pairs
  | other (uri : String)
deriving Repr, DecidableEq

def tagLeader : String := "tag:yaml.org,2002:"

def Tag.words : List (String × Tag) := [
  ("null", .null), ("bool", .bool), ("int", .int), ("float", .float), ("timestamp", .timestamp),
  ("binary", .binary), ("str", .str), ("merge", .merge), ("value", .value), ("yaml", .indicator),
  ("seq", .seq), ("map", .map), ("set", .set), ("omap", .orderedMap), ("pairs", .pairs)]

def Tag.ofUri (uri : String) : Tag :=
  match Tag.words.find? fun w => tagLeader ++ w.1 == uri with
  | some w => w.2
  | none => .other uri

/-! ## The forms of plain texts -/

def truthWords : List (String × Bool) := [
  ("yes", true), ("no", false), ("true", true), ("false", false), ("on", true), ("off", false)]

def unsigned : List Char → List Char
  | '-' :: cs => cs
  | '+' :: cs => cs
  | cs => cs

def isCasing (word : String) (cs : List Char) : Bool :=
  let low := word.toList
  cs == low || cs == low.map Char.toUpper ||
    cs == (low.take 1).map Char.toUpper ++ low.drop 1

def isDigitOrLow (c : Char) : Bool :=
  c.isDigit || c == '_'

def isLooseNumber : List Char → Bool
  | [] => false
  | c :: cs => c.isDigit && cs.all isDigitOrLow

def isBaseSixtyPlace : List Char → Bool
  | [c] => c.isDigit
  | [c, d] => '0' ≤ c && c ≤ '5' && d.isDigit
  | _ => false

def isExponent : List Char → Bool
  | [] => true
  | e :: sign :: digits =>
    (e == 'e' || e == 'E') && (sign == '-' || sign == '+') && !digits.isEmpty &&
      digits.all Char.isDigit
  | _ => false

def isFraction (cs : List Char) : Bool :=
  isExponent (cs.dropWhile isDigitOrLow)

def isFloatForm (cs : List Char) : Bool :=
  let body := unsigned cs
  let whole := body.takeWhile (· != '.')
  let places := Text.splitAt ':' whole
  match body.dropWhile (· != '.') with
  | [] => false
  | _ :: after =>
    (isLooseNumber whole && isFraction after) ||
      (body.length = cs.length && whole.isEmpty &&
        after.head?.any Char.isDigit && isFraction after) ||
      (places.length > 1 && places.head?.any isLooseNumber && (places.drop 1).all isBaseSixtyPlace &&
        after.all isDigitOrLow) ||
      (whole.isEmpty && ["inf", "Inf", "INF"].contains (String.ofList after)) ||
      (body.length = cs.length && whole.isEmpty &&
        ["nan", "NaN", "NAN"].contains (String.ofList after))

def isPlaceOf (base : Nat) (c : Char) : Bool :=
  c == '_' || (Json.hexValue? c).any (· < base)

def isIntForm (cs : List Char) : Bool :=
  match unsigned cs with
  | ['0'] => true
  | '0' :: 'b' :: digits => !digits.isEmpty && digits.all (isPlaceOf 2)
  | '0' :: 'x' :: digits => !digits.isEmpty && digits.all (isPlaceOf 16)
  | '0' :: digits => digits.all (isPlaceOf 8)
  | body =>
    let places := Text.splitAt ':' body
    places.head?.any isLooseNumber && (places.drop 1).all isBaseSixtyPlace

/-! ## Points in time -/

structure Stamp where
  year : Nat
  month : Nat
  day : Nat
  long : Bool
  time : Option (Nat × Nat × Nat)
  fraction : List Char
  offset : Option Int

def oneOrTwo? (cs : List Char) : Option (Nat × List Char) :=
  let digits := (cs.take 2).takeWhile Char.isDigit
  if digits.isEmpty then none else some (Text.digitsValue digits, cs.drop digits.length)

def digits? (n : Nat) (cs : List Char) : Option (Nat × List Char) :=
  let digits := (cs.take n).takeWhile Char.isDigit
  if digits.length = n then some (Text.digitsValue digits, cs.drop n) else none

def expect? (c : Char) : List Char → Option (List Char)
  | d :: cs => if c = d then some cs else none
  | [] => none

def stampOffset? (cs : List Char) : Option (Option Int) :=
  match cs.dropWhile fun c => c == ' ' || c == '\t' with
  | [] => if cs.isEmpty then some none else none
  | ['Z'] => some (some 0)
  | sign :: rest =>
    if sign == '-' || sign == '+' then do
      let (hours, rest) ← oneOrTwo? rest
      let (minutes, rest) ← match rest with
        | ':' :: rest => digits? 2 rest
        | rest => some (0, rest)
      let span : Int := (hours * 60 + minutes) * 60000000
      if rest.isEmpty then some (some (if sign == '-' then -span else span)) else none
    else none

def stamp? (cs : List Char) : Option Stamp := do
  let (year, rest) ← digits? 4 cs
  let rest ← expect? '-' rest
  let monthStart := rest
  let (month, rest) ← oneOrTwo? rest
  let rest ← expect? '-' rest
  let (day, after) ← oneOrTwo? rest
  let long := (digits? 2 monthStart).isSome && (digits? 2 rest).isSome
  let blanks := after.takeWhile fun c => c == ' ' || c == '\t'
  let start : Option (List Char) := match after with
    | 'T' :: r => some r
    | 't' :: r => some r
    | _ => if blanks.isEmpty then none else some (after.drop blanks.length)
  match start with
  | none =>
    if after.isEmpty then some { year, month, day, long, time := none, fraction := [], offset := none }
    else none
  | some rest =>
    let (hour, rest) ← oneOrTwo? rest
    let rest ← expect? ':' rest
    let (minute, rest) ← digits? 2 rest
    let rest ← expect? ':' rest
    let (second, rest) ← digits? 2 rest
    let (fraction, rest) := match rest with
      | '.' :: r => (r.takeWhile Char.isDigit, r.dropWhile Char.isDigit)
      | r => ([], r)
    let offset ← stampOffset? rest
    some { year, month, day, long, time := some (hour, minute, second), fraction, offset }

def isStampForm (cs : List Char) : Bool :=
  (stamp? cs).any fun s => s.long || s.time.isSome

def Stamp.read (s : Stamp) : Except Fault Value := do
  let lift := fun {α : Type} (r : Except Time.Fault α) => r.mapError Fault.time
  match s.time with
  | none => return .date (← lift (Date.ofYmd s.year s.month s.day))
  | some (hour, minute, second) =>
    let digits := s.fraction.take 6
    let micro := Text.digitsValue (digits ++ List.replicate (6 - digits.length) '0')
    let offset ← match s.offset with
      | some o => lift ((checkOffset o).map some)
      | none => pure none
    let date ← lift (Date.ofYmd s.year s.month s.day)
    let clock ← lift (Clock.ofParts hour minute second micro)
    return .moment { date, clock, offset }

/-! ## Classing a plain text -/

def Tag.ofForm (text : String) : Tag :=
  let cs := match text.toList.reverse with
    | '\n' :: rest => rest.reverse
    | _ => text.toList
  if truthWords.any fun w => isCasing w.1 cs then .bool
  else if isFloatForm cs then .float
  else if isIntForm cs then .int
  else if cs == ['<', '<'] then .merge
  else if cs.isEmpty || cs == ['~'] || isCasing "null" cs then .null
  else if isStampForm cs then .timestamp
  else if cs == ['='] then .value
  else if cs == ['!'] || cs == ['&'] || cs == ['*'] then .indicator
  else .str

/-! ## Reading a scalar -/

/-- A number in base `base`, a power of two; its sign, its leading letter and single underscores are
allowed. -/
def readBase (base : Nat) (letters : List Char) (text : String) : Except Fault Int :=
  let fault := Fault.integer text base
  let (negative, cs) := readSign (trimNumber text.toList)
  let cs := match cs with
    | '0' :: l :: '_' :: rest => if letters.contains l then rest else cs
    | '0' :: l :: rest => if letters.contains l then rest else cs
    | _ => cs
  match dropUnderscores? none cs with
  | some digits =>
    if digits.isEmpty || !digits.all fun c => (Json.hexValue? c).any (· < base) then .error fault
    else
      let n := digits.foldl (fun n c => base * n + (Json.hexValue? c).getD 0) 0
      .ok (if negative then -n else n)
  | none => .error fault

def readDecimal (text : String) : Except Fault Int :=
  match readInt text with
  | .ok n => .ok n
  | .error (.tooLong digits) => .error (.tooLong digits)
  | .error .malformed => .error (.integer text 10)

def readInteger (text : String) : Except Fault Value := do
  let cs := text.toList.filter (· != '_')
  let sign : Int := if cs.head? == some '-' then -1 else 1
  let body := unsigned cs
  match cs, body with
  | [], _ => .error .emptyNumber
  | _, ['0'] => return .int 0
  | _, '0' :: 'b' :: rest => return .int (sign * (← readBase 2 ['b', 'B'] (String.ofList rest)))
  | _, '0' :: 'x' :: rest => return .int (sign * (← readBase 16 ['x', 'X'] (String.ofList rest)))
  | _, '0' :: _ => return .int (sign * (← readBase 8 ['o', 'O'] (String.ofList body)))
  | _, [] => .error .emptyNumber
  | _, _ =>
    let places ← (Text.splitAt ':' body).mapM fun p => readDecimal (String.ofList p)
    return .int (sign * places.foldl (fun n p => 60 * n + p) 0)

def readFloatPart (cs : List Char) : Except Fault Binary64 :=
  match readFloat (String.ofList cs) with
  | some x => .ok x
  | none => .error (.float (String.ofList cs))

def baseSixty (sum : Binary64) (base : Nat) : List Binary64 → Binary64
  | [] => sum
  | x :: rest => baseSixty (sum.add (x.mul (.ofInt base))) (60 * base) rest

def readFloating (text : String) : Except Fault Value := do
  let cs := Text.lowerChars (text.toList.filter (· != '_'))
  let sign : Binary64 := .ofInt (if cs.head? == some '-' then -1 else 1)
  let body := unsigned cs
  if cs.isEmpty then .error .emptyNumber
  else if body == ".inf".toList then return .float (sign.mul (.infinite false))
  else if body == ".nan".toList then return .float (.nan true)
  else if body.contains ':' then
    let places ← (Text.splitAt ':' body).mapM readFloatPart
    return .float (sign.mul (baseSixty (.zero false) 1 places.reverse))
  else return .float (sign.mul (← readFloatPart body))

def base64Value? (c : Char) : Option Nat :=
  let n := c.toNat
  if 'A' ≤ c && c ≤ 'Z' then some (n - 65)
  else if 'a' ≤ c && c ≤ 'z' then some (n - 71)
  else if c.isDigit then some (n + 4)
  else if c == '+' then some 62
  else if c == '/' then some 63
  else none

/-- The octets of a text in base sixty-four: `place` digits of a group of four have been read, `left`
is what they leave over, and `pads` padding signs came last. Other characters are passed over. -/
def readBase64 (place left pads : Nat) : List Char → Option (List UInt8)
  | [] => if place = 0 then some [] else none
  | '=' :: rest =>
    if place ≥ 2 then
      if place + pads + 1 ≥ 4 then some [] else readBase64 place left (pads + 1) rest
    else readBase64 place left pads rest
  | c :: rest =>
    match base64Value? c with
    | none => readBase64 place left pads rest
    | some v =>
      match place with
      | 0 => readBase64 1 v 0 rest
      | 1 => (readBase64 2 (v % 16) 0 rest).map (UInt8.ofNat (left * 4 + v / 16) :: ·)
      | 2 => (readBase64 3 (v % 4) 0 rest).map (UInt8.ofNat (left * 16 + v / 4) :: ·)
      | _ => (readBase64 0 0 0 rest).map (UInt8.ofNat (left * 64 + v) :: ·)

def Tag.read (tag : Tag) (text : String) : Except Fault Value :=
  match tag with
  | .null => .ok .null
  | .bool =>
    let word := Text.lower text
    match truthWords.find? (·.1 == word) with
    | some w => .ok (.bool w.2)
    | none => .error (.truth word)
  | .int => readInteger text
  | .float => readFloating text
  | .timestamp =>
    let cs := match text.toList.reverse with
      | '\n' :: rest => rest.reverse
      | _ => text.toList
    match stamp? cs with
    | some s => s.read
    | none => .error .noTime
  | .binary =>
    if text.toList.all (·.toNat < 128) then
      match readBase64 0 0 0 text.toList with
      | some octets => .ok (.bytes octets)
      | none => .error .malformed
    else .error .malformed
  | .str => .ok (.text text)
  | _ => .error .malformed

end Transclude.Yaml
