import Transclude.Value.Json.Reader

/-!
# The scalars of TOML

Texts, numbers, dates and times of a TOML document. Every reader takes a text from its place on and
gives the value with what follows it.
-/

namespace Transclude.Toml

open Transclude.Number Transclude.Text Transclude.Time

inductive Fault where
  | malformed
  | integer (digits : Nat)
deriving Repr, DecidableEq

def Fault.message : Fault → String
  | .malformed => syntaxDetail
  | .integer digits => Json.tooManyDigits digits

def isControl (c : Char) : Bool :=
  (c.toNat < 32 && c != '\t') || c.toNat == 127

def isSpace (c : Char) : Bool :=
  c == ' ' || c == '\t'

def isSpaceOrFeed (c : Char) : Bool :=
  isSpace c || c == '\n'

/-! ## Texts -/

def escape? : Char → Option Char
  | 'b' => some (Char.ofNat 8)
  | 't' => some '\t'
  | 'n' => some '\n'
  | 'f' => some (Char.ofNat 12)
  | 'r' => some '\r'
  | '"' => some '"'
  | '\\' => some '\\'
  | _ => none

def numberedChar? (digits : Nat) (cs : List Char) : Option (Char × List Char) :=
  let word := cs.take digits
  if word.length = digits && word.all fun c => (Json.hexValue? c).isSome then
    let n := word.foldl (fun n c => 16 * n + (Json.hexValue? c).getD 0) 0
    if n.isValidChar then some (Char.ofNat n, cs.drop digits) else none
  else none

def afterLineEnd? (cs : List Char) : Option (List Char) :=
  match cs with
  | '\n' :: rest => some (rest.dropWhile isSpaceOrFeed)
  | c :: rest =>
    if isSpace c then
      match rest.dropWhile isSpace with
      | [] => some []
      | '\n' :: rest => some (rest.dropWhile isSpaceOrFeed)
      | _ => none
    else none
  | [] => none

/-- A text in double quotes after the opening ones; `text` is what has been read, the last first. -/
def takeBasic? (multiline : Bool) (text : List Char) (cs : List Char) : Nat → Option (List Char × List Char)
  | 0 => none
  | fuel + 1 =>
    match cs with
    | [] => none
    | '"' :: rest =>
      if !multiline then some (text.reverse, rest)
      else if ['"', '"'].isPrefixOf rest then some (text.reverse, rest.drop 2)
      else takeBasic? multiline ('"' :: text) rest fuel
    | '\\' :: rest =>
      match if multiline then afterLineEnd? rest else none with
      | some rest => takeBasic? multiline text rest fuel
      | none =>
        match rest with
        | 'u' :: rest => do
          let (c, rest) ← numberedChar? 4 rest
          takeBasic? multiline (c :: text) rest fuel
        | 'U' :: rest => do
          let (c, rest) ← numberedChar? 8 rest
          takeBasic? multiline (c :: text) rest fuel
        | e :: rest => do takeBasic? multiline ((← escape? e) :: text) rest fuel
        | [] => none
    | c :: rest =>
      if isControl c && !(multiline && c == '\n') then none
      else takeBasic? multiline (c :: text) rest fuel

def takeLiteral? (cs : List Char) : Option (List Char × List Char) :=
  let inside := cs.takeWhile (· != '\'')
  match cs.drop inside.length with
  | _ :: rest => if inside.any isControl then none else some (inside, rest)
  | [] => none

def cutAtQuotes? : List Char → Option (List Char × List Char)
  | [] => none
  | c :: cs =>
    if ['\'', '\'', '\''].isPrefixOf (c :: cs) then some ([], cs.drop 2)
    else (cutAtQuotes? cs).map fun (before, after) => (c :: before, after)

def addQuotes (quote : Char) (text rest : List Char) : List Char × List Char :=
  let more := (rest.take 2).takeWhile (· == quote)
  (text ++ more, rest.drop more.length)

def takeMultiline? (quote : Char) (cs : List Char) : Option (List Char × List Char) := do
  let cs := match cs with
    | '\n' :: rest => rest
    | cs => cs
  if quote == '"' then
    let (text, rest) ← takeBasic? true [] cs (cs.length + 1)
    return addQuotes quote text rest
  else
    let (text, rest) ← cutAtQuotes? cs
    if text.any fun c => isControl c && c != '\n' then none else return addQuotes quote text rest

/-! ## Dates and times -/

def twoDigits? (least most : Nat) (cs : List Char) : Option (Nat × List Char) :=
  match cs with
  | a :: b :: rest =>
    if a.isDigit && b.isDigit then
      let n := digitsValue [a, b]
      if least ≤ n && n ≤ most then some (n, rest) else none
    else none
  | _ => none

def expect? (c : Char) : List Char → Option (List Char)
  | d :: cs => if c = d then some cs else none
  | [] => none

def takeClock? (cs : List Char) : Option (Clock × List Char) := do
  let (hour, rest) ← twoDigits? 0 23 cs
  let (minute, rest) ← twoDigits? 0 59 (← expect? ':' rest)
  let (second, rest) ← twoDigits? 0 59 (← expect? ':' rest)
  let (micro, rest) := match rest with
    | '.' :: after =>
      let digits := after.takeWhile Char.isDigit
      let kept := digits.take 6
      if digits.isEmpty then (0, rest)
      else
        (digitsValue (kept ++ List.replicate (6 - kept.length) '0'), after.drop digits.length)
    | rest => (0, rest)
  match Clock.ofParts hour minute second micro with
  | .ok clock => return (clock, rest)
  | .error _ => none

def takeOffset? (cs : List Char) : Option (Int × List Char) :=
  match cs with
  | 'Z' :: rest => some (0, rest)
  | 'z' :: rest => some (0, rest)
  | sign :: rest =>
    if sign == '+' || sign == '-' then do
      let (hours, rest) ← twoDigits? 0 23 rest
      let (minutes, rest) ← twoDigits? 0 59 (← expect? ':' rest)
      let span : Int := (hours * 60 + minutes) * 60000000
      return (if sign == '-' then -span else span, rest)
    else none
  | [] => none

def takeDay? (cs : List Char) : Option ((Nat × Nat × Nat) × List Char) := do
  let digits := cs.take 4
  if digits.length = 4 && digits.all Char.isDigit then
    let (month, rest) ← twoDigits? 1 12 (← expect? '-' (cs.drop 4))
    let (day, rest) ← twoDigits? 1 31 (← expect? '-' rest)
    return ((digitsValue digits, month, day), rest)
  else none

def takeDate? (cs : List Char) : Option (Option Value × List Char) := do
  let ((year, month, day), rest) ← takeDay? cs
  let date? := match Date.ofYmd year month day with
    | .ok d => some d
    | .error _ => none
  let timed := match rest with
    | c :: after => if c == 'T' || c == 't' || c == ' ' then takeClock? after else none
    | [] => none
  match timed with
  | none => return (date?.map Value.date, rest)
  | some (clock, rest) =>
    let (offset, rest) := match takeOffset? rest with
      | some (o, rest) => (some o, rest)
      | none => (none, rest)
    return (date?.map fun date => .moment { date, clock, offset }, rest)

/-! ## Numbers -/

def spanPlaces (isDigit : Char → Bool) (cs : List Char) : List Char × List Char :=
  match cs with
  | '_' :: d :: rest =>
    if isDigit d then
      let (taken, rest') := spanPlaces isDigit rest
      ('_' :: d :: taken, rest')
    else ([], cs)
  | c :: rest =>
    if isDigit c then
      let (taken, rest') := spanPlaces isDigit rest
      (c :: taken, rest')
    else ([], cs)
  | [] => ([], [])

def takePlaces? (isDigit : Char → Bool) (cs : List Char) : Option (List Char × List Char) :=
  if cs.head?.any isDigit then some (spanPlaces isDigit cs) else none

def takeBased? (cs : List Char) : Option (Nat × List Char) :=
  let based := fun (base : Nat) (rest : List Char) => do
    let (digits, rest) ← takePlaces? (fun c => (Json.hexValue? c).any (· < base)) rest
    return (digits.foldl (fun n c => if c == '_' then n else base * n + (Json.hexValue? c).getD 0) 0, rest)
  match cs with
  | '0' :: 'x' :: rest => based 16 rest
  | '0' :: 'b' :: rest => based 2 rest
  | '0' :: 'o' :: rest => based 8 rest
  | _ => none

def takeWhole? (cs : List Char) : Option (List Char × List Char) :=
  match cs with
  | '0' :: rest => some (['0'], rest)
  | cs => takePlaces? Char.isDigit cs

def takePart (marks : List Char) (signed : Bool) (cs : List Char) : List Char × List Char :=
  match cs with
  | c :: rest =>
    if marks.contains c then
      let (sign, rest) := match rest with
        | s :: after => if signed && (s == '+' || s == '-') then ([s], after) else ([], rest)
        | [] => ([], [])
      match takePlaces? Char.isDigit rest with
      | some (digits, rest) => (c :: sign ++ digits, rest)
      | none => ([], cs)
    else ([], cs)
  | [] => ([], [])

def takeNumber? (cs : List Char) : Except Fault (Option (Value × List Char)) :=
  match takeBased? cs with
  | some (n, rest) => .ok (some (.int n, rest))
  | none =>
    let (sign, body) := match cs with
      | c :: rest => if c == '+' || c == '-' then ([c], rest) else ([], cs)
      | [] => ([], [])
    match takeWhole? body with
    | none => .ok none
    | some (whole, rest) =>
      let (fraction, rest) := takePart ['.'] false rest
      let (exponent, rest) := takePart ['e', 'E'] true rest
      let text := String.ofList (sign ++ whole ++ fraction ++ exponent)
      if fraction.isEmpty && exponent.isEmpty then
        match readInt text with
        | .ok n => .ok (some (.int n, rest))
        | .error (.tooLong digits) => .error (.integer digits)
        | .error .malformed => .ok none
      else .ok ((readFloat text).map fun x => (.float x, rest))

def specialFloats : List (String × Binary64) := [
  ("inf", .infinite false), ("nan", .nan false), ("+inf", .infinite false), ("-inf", .infinite true),
  ("+nan", .nan false), ("-nan", .nan true)]

end Transclude.Toml
