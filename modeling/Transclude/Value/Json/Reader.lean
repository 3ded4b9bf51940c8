import Transclude.Value.Basic
import Transclude.Number.Reading
import Transclude.Text.Lines

/-!
# Reading JSON

Beside the standard `Json.read` takes the words `NaN`, `Infinity` and `-Infinity`; a key that comes twice has its last
value. A document that is refused has a `Json.Fault`.
-/

namespace Transclude.Json

open Transclude.Number Transclude.Text

inductive Problem where
  | byteOrderMark
  | expectingValue
  | expectingName
  | expectingColon
  | expectingComma
  | extraData
  | unterminatedString
  | controlCharacter
  | badEscape
  | badUnicodeEscape
deriving Repr, DecidableEq

inductive Fault where
  | malformed (problem : Problem) (line column offset : Nat)
  | integer (digits : Nat)
deriving Repr, DecidableEq

def Problem.message : Problem → String
  | .byteOrderMark => "Unexpected UTF-8 BOM (decode using utf-8-sig)"
  | .expectingValue => "Expecting value"
  | .expectingName => "Expecting property name enclosed in double quotes"
  | .expectingColon => "Expecting ':' delimiter"
  | .expectingComma => "Expecting ',' delimiter"
  | .extraData => "Extra data"
  | .unterminatedString => "Unterminated string starting at"
  | .controlCharacter => "Invalid control character at"
  | .badEscape => "Invalid \\escape"
  | .badUnicodeEscape => "Invalid \\uXXXX escape"

def tooManyDigits (digits : Nat) : String :=
  s!"Exceeds the limit ({maxDigits} digits) for integer string conversion: value has {digits} digits; " ++
    "use sys.set_int_max_str_digits() to increase the limit"

def Fault.message : Fault → String
  | .malformed problem line column offset =>
    s!"{problem.message}: line {line} column {column} (char {offset})"
  | .integer digits => tooManyDigits digits

/-- A fault on the way: a problem with what was left to read there, or an integer that is too long. -/
inductive Stop where
  | at (problem : Problem) (left : Nat)
  | integer (digits : Nat)

def isSpace (c : Char) : Bool :=
  c == ' ' || c == '\t' || c == '\n' || c == '\r'

def skipSpace (cs : List Char) : List Char :=
  cs.dropWhile isSpace

/-- A problem at the place where `cs` begins. -/
def stopAt {α : Type} (problem : Problem) (cs : List Char) : Except Stop α :=
  .error (.at problem cs.length)

def hexValue? (c : Char) : Option Nat :=
  if c.isDigit then some (c.toNat - 48)
  else if 'a' ≤ c && c ≤ 'f' then some (c.toNat - 87)
  else if 'A' ≤ c && c ≤ 'F' then some (c.toNat - 55)
  else none

def hexFour? : List Char → Option Nat
  | a :: b :: c :: d :: _ => do
    return (((← hexValue? a) * 16 + (← hexValue? b)) * 16 + (← hexValue? c)) * 16 + (← hexValue? d)
  | _ => none

def escape? : Char → Option Char
  | '"' => some '"'
  | '\\' => some '\\'
  | '/' => some '/'
  | 'b' => some (Char.ofNat 8)
  | 'f' => some (Char.ofNat 12)
  | 'n' => some '\n'
  | 'r' => some '\r'
  | 't' => some '\t'
  | _ => none

def charOfUnit (n : Nat) : Char :=
  if n.isValidChar then Char.ofNat n else '�'

def isHighUnit (n : Nat) : Bool :=
  0xd800 ≤ n && n ≤ 0xdbff

def isLowUnit (n : Nat) : Bool :=
  0xdc00 ≤ n && n ≤ 0xdfff

/-- Reads a character by its number; `cs` begins after the letter `u`. Two numbers can make one
character. -/
def readUnicode (cs : List Char) : Except Stop (Char × List Char) :=
  -- a number that reaches the end of the document is refused: the closing quote is missing
  if cs.length ≤ 4 then .error (.at .badUnicodeEscape (cs.length + 1))
  else
    match hexFour? cs with
    | none => .error (.at .badUnicodeEscape (cs.length + 1))
    | some n =>
      let rest := cs.drop 4
      if isHighUnit n && rest.length > 6 then
        match rest with
        | '\\' :: 'u' :: more =>
          match hexFour? more with
          | none => .error (.at .badUnicodeEscape (more.length + 1))
          | some k =>
            if isLowUnit k then
              .ok (charOfUnit (0x10000 + (n - 0xd800) * 0x400 + (k - 0xdc00)), more.drop 4)
            else .ok (charOfUnit n, rest)
        | _ => .ok (charOfUnit n, rest)
      else .ok (charOfUnit n, rest)

/-- Reads a string after its opening quote; `start` is what was left to read at the quote, and
`text` is what has been read, last character first. -/
def readString (start : Nat) (text : List Char) (cs : List Char) : Nat → Except Stop (String × List Char)
  | 0 => .error (.at .unterminatedString start)
  | fuel + 1 =>
    match cs with
    | [] => .error (.at .unterminatedString start)
    | '"' :: rest => .ok (String.ofList text.reverse, rest)
    | ['\\'] => .error (.at .unterminatedString start)
    | '\\' :: 'u' :: rest =>
      match readUnicode rest with
      | .error e => .error e
      | .ok (c, rest) => readString start (c :: text) rest fuel
    | '\\' :: c :: rest =>
      match escape? c with
      | some c => readString start (c :: text) rest fuel
      | none => stopAt .badEscape cs
    | c :: rest =>
      if c.toNat ≤ 0x1f then stopAt .controlCharacter cs
      else readString start (c :: text) rest fuel

def wholeDigits? : List Char → Option (List Char × List Char)
  | '0' :: rest => some (['0'], rest)
  | cs =>
    let (digits, rest) := spanDigits cs
    if digits.isEmpty then none else some (digits, rest)

def fraction (cs : List Char) : List Char × List Char :=
  match cs with
  | '.' :: rest =>
    let (digits, rest) := spanDigits rest
    if digits.isEmpty then ([], cs) else (digits, rest)
  | _ => ([], cs)

def exponent? (cs : List Char) : Option (Int × List Char) :=
  match cs with
  | c :: rest =>
    if c == 'e' || c == 'E' then
      let (negative, rest) := readSign rest
      let (digits, rest) := spanDigits rest
      if digits.isEmpty then none
      else
        let n : Int := digitsValue digits
        some (if negative then -n else n, rest)
    else none
  | [] => none

def readNumber (cs : List Char) : Except Stop (Value × List Char) :=
  let (negative, body) :=
    match cs with
    | '-' :: rest => (true, rest)
    | _ => (false, cs)
  match wholeDigits? body with
  | none => stopAt .expectingValue cs
  | some (whole, rest) =>
    let (places, rest) := fraction rest
    match exponent? rest with
    | some (e, rest) =>
      let x := ofDecimal negative (digitsValue (whole ++ places)) (e - (places.length : Nat))
      .ok (.float x, rest)
    | none =>
      if places.isEmpty then
        if whole.length > maxDigits then .error (.integer whole.length)
        else
          let n : Int := digitsValue whole
          .ok (.int (if negative then -n else n), rest)
      else
        let x := ofDecimal negative (digitsValue (whole ++ places)) (-(places.length : Int))
        .ok (.float x, rest)

def words : List (List Char × Value) := [
  ("null".toList, .null), ("true".toList, .bool true), ("false".toList, .bool false),
  ("NaN".toList, .float (.nan false)), ("Infinity".toList, .float (.infinite false)),
  ("-Infinity".toList, .float (.infinite true))
]

def readWord (cs : List Char) : Except Stop (Value × List Char) :=
  match words.find? fun w => startsWith cs w.1 with
  | some (w, v) => .ok (v, cs.drop w.length)
  | none => readNumber cs

mutual
def readValue (cs : List Char) : Nat → Except Stop (Value × List Char)
  | 0 => stopAt .expectingValue cs
  | fuel + 1 =>
    match cs with
    | [] => stopAt .expectingValue cs
    | '"' :: rest =>
      match readString cs.length [] rest cs.length with
      | .error e => .error e
      | .ok (s, rest) => .ok (.text s, rest)
    | '[' :: rest =>
      match skipSpace rest with
      | ']' :: rest => .ok (.list [], rest)
      | rest => readItems [] rest fuel
    | '{' :: rest =>
      match skipSpace rest with
      | '}' :: rest => .ok (.map [], rest)
      | rest => readEntries [] rest fuel
    | _ => readWord cs

/-- Reads the items of a list up to its bracket; `items` are those read, last one first. -/
def readItems (items : List Value) (cs : List Char) : Nat → Except Stop (Value × List Char)
  | 0 => stopAt .expectingValue cs
  | fuel + 1 =>
    match readValue cs fuel with
    | .error e => .error e
    | .ok (v, rest) =>
      match skipSpace rest with
      | ']' :: rest => .ok (.list (v :: items).reverse, rest)
      | ',' :: rest => readItems (v :: items) (skipSpace rest) fuel
      | rest => stopAt .expectingComma rest

def readEntries (entries : List (Value × Value)) (cs : List Char) : Nat → Except Stop (Value × List Char)
  | 0 => stopAt .expectingName cs
  | fuel + 1 =>
    match cs with
    | '"' :: rest =>
      match readString cs.length [] rest cs.length with
      | .error e => .error e
      | .ok (key, rest) =>
        match skipSpace rest with
        | ':' :: rest =>
          match readValue (skipSpace rest) fuel with
          | .error e => .error e
          | .ok (v, rest) =>
            let entries := Value.put entries (.text key) v
            match skipSpace rest with
            | '}' :: rest => .ok (.map entries, rest)
            | ',' :: rest => readEntries entries (skipSpace rest) fuel
            | rest => stopAt .expectingComma rest
        | rest => stopAt .expectingColon rest
    | _ => stopAt .expectingName cs
end

def position (cs : List Char) (offset : Nat) : Nat × Nat :=
  let before := cs.take offset
  (before.count '\n' + 1, (before.reverse.takeWhile (· != '\n')).length + 1)

def Stop.fault (cs : List Char) : Stop → Fault
  | .integer digits => .integer digits
  | .at problem left =>
    let offset := cs.length - left
    let (line, column) := position cs offset
    .malformed problem line column offset

def readChars (cs : List Char) : Except Stop Value :=
  if cs.head?.any (·.toNat == 0xfeff) then stopAt .byteOrderMark cs
  else
    match readValue (skipSpace cs) (2 * cs.length + 2) with
    | .error e => .error e
    | .ok (v, rest) =>
      match skipSpace rest with
      | [] => .ok v
      | rest => stopAt .extraData rest

def read (s : String) : Except Fault Value :=
  (readChars s.toList).mapError (Stop.fault s.toList)

end Transclude.Json
