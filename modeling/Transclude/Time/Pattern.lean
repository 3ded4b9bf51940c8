import Transclude.Time.Calendar

/-!
# Writing moments by a pattern

In a pattern `%` introduces a field of the moment, with flags (`_`, `-`, `0`, `^`, `#`), a width and a modifier before
its letter. A sequence that is no field is written as it stands. Years are not filled to four digits.
-/

namespace Transclude.Time

def dayNames : List String :=
  ["Monday", "Tuesday", "Wednesday", "Thursday", "Friday", "Saturday", "Sunday"]

def monthNames : List String :=
  ["January", "February", "March", "April", "May", "June", "July", "August", "September", "October",
    "November", "December"]

structure FieldStyle where
  fill : Option Char := none
  capitals : Bool := false
  swapped : Bool := false
  width : Nat := 0
  modifier : Option Char := none

def FieldStyle.place (style : FieldStyle) (text : List Char) : List Char :=
  let c := if style.fill == some '0' then '0' else ' '
  List.replicate (style.width - text.length) c ++ text

def FieldStyle.number (style : FieldStyle) (digits : Nat) (fill : Char) (n : Nat) : List Char :=
  let text := Nat.toDigits 10 n
  let fill := style.fill.getD fill
  if fill == '-' then style.place text
  else
    let c := if fill == '_' then ' ' else '0'
    List.replicate (max digits style.width - text.length) c ++ text

def FieldStyle.word (style : FieldStyle) (text : String) : List Char :=
  let cs := text.toList
  style.place (if style.capitals || style.swapped then cs.map Char.toUpper else cs)

def modifierFits : Option Char → Char → Bool
  | none, _ => true
  | some 'E', c => "cCxXyYz".toList.contains c
  | some _, c => "deHIklmMSuUVwWybBhz".toList.contains c

def hour12 (hour : Nat) : Nat :=
  if hour % 12 = 0 then 12 else hour % 12

def Date.sundayWeekday (d : Date) : Nat :=
  (d.weekday + 1) % 7

def Moment.epochSeconds (m : Moment) : Int :=
  ((m.date.ordinal : Int) - 719163) * 86400 + m.clock.hour * 3600 + m.clock.minute * 60 +
    m.clock.second

def simpleField? (m : Moment) (style : FieldStyle) (letter : Char) : Option (List Char) :=
  let d := m.date
  let c := m.clock
  let yday := d.dayOfYear - 1
  match letter with
  | 'a' => some (style.word (((dayNames.getD d.weekday "").take 3).toString))
  | 'A' => some (style.word (dayNames.getD d.weekday ""))
  | 'b' | 'h' => some (style.word (((monthNames.getD (d.month - 1) "").take 3).toString))
  | 'B' => some (style.word (monthNames.getD (d.month - 1) ""))
  | 'C' => some (style.number 1 '0' (d.year / 100))
  | 'd' => some (style.number 2 '0' d.day)
  | 'e' => some (style.number 2 '_' d.day)
  | 'g' => some (style.number 2 '0' (d.isoWeek.1 % 100))
  | 'G' => some (style.number 1 '0' d.isoWeek.1)
  | 'H' => some (style.number 2 '0' c.hour)
  | 'I' => some (style.number 2 '0' (hour12 c.hour))
  | 'j' => some (style.number 3 '0' d.dayOfYear)
  | 'k' => some (style.number 2 '_' c.hour)
  | 'l' => some (style.number 2 '_' (hour12 c.hour))
  | 'm' => some (style.number 2 '0' d.month)
  | 'M' => some (style.number 2 '0' c.minute)
  | 'n' => some (style.place ['\n'])
  | 'p' =>
    let text := if c.hour < 12 then "AM" else "PM"
    some (style.place (if style.swapped then text.toList.map Char.toLower else text.toList))
  | 'P' => some (style.place (if c.hour < 12 then ['a', 'm'] else ['p', 'm']))
  | 's' =>
    let n := m.epochSeconds
    some (style.place ((if n < 0 then ['-'] else []) ++ Nat.toDigits 10 n.natAbs))
  | 'S' => some (style.number 2 '0' c.second)
  | 't' => some (style.place ['\t'])
  | 'u' => some (style.number 1 '0' (d.weekday + 1))
  | 'U' => some (style.number 2 '0' ((yday + 7 - d.sundayWeekday) / 7))
  | 'V' => some (style.number 2 '0' d.isoWeek.2)
  | 'w' => some (style.number 1 '0' d.sundayWeekday)
  | 'W' => some (style.number 2 '0' ((yday + 7 - d.weekday) / 7))
  | 'y' => some (style.number 2 '0' (d.year % 100))
  | 'Y' => some (style.number 1 '0' d.year)
  | 'z' => some []
  | 'Z' => some (style.place [])
  | '%' => some (style.place ['%'])
  | _ => none

def compoundPattern? : Char → Option String
  | 'c' => some "%a %b %e %H:%M:%S %Y"
  | 'D' => some "%m/%d/%y"
  | 'F' => some "%Y-%m-%d"
  | 'r' => some "%I:%M:%S %p"
  | 'R' => some "%H:%M"
  | 'T' => some "%H:%M:%S"
  | 'x' => some "%m/%d/%y"
  | 'X' => some "%H:%M:%S"
  | _ => none

def writeSimple (m : Moment) (capitals : Bool) : List Char → List Char
  | '%' :: letter :: rest =>
    (simpleField? m { capitals } letter).getD ['%', letter] ++ writeSimple m capitals rest
  | c :: rest => c :: writeSimple m capitals rest
  | [] => []

def field? (m : Moment) (style : FieldStyle) (letter : Char) : Option (List Char) :=
  if !modifierFits style.modifier letter then none
  else
    match compoundPattern? letter with
    | some pattern => some (style.place (writeSimple m style.capitals pattern.toList))
    | none => simpleField? m style letter

def readFlags (style : FieldStyle) : List Char → FieldStyle × List Char
  | c :: rest =>
    if c == '_' || c == '-' || c == '0' then readFlags { style with fill := some c } rest
    else if c == '^' then readFlags { style with capitals := true } rest
    else if c == '#' then readFlags { style with swapped := true } rest
    else (style, c :: rest)
  | [] => (style, [])

def readStyle (cs : List Char) : FieldStyle × List Char :=
  let (style, rest) := readFlags {} cs
  let digits := rest.takeWhile Char.isDigit
  let rest := rest.dropWhile Char.isDigit
  let style := { style with width := digits.foldl (fun n c => 10 * n + (c.toNat - 48)) 0 }
  match rest with
  | 'E' :: more => ({ style with modifier := some 'E' }, more)
  | 'O' :: more => ({ style with modifier := some 'O' }, more)
  | _ => (style, rest)

/-- Writes a pattern with the sequences `%f`, `%z` and `%Z` already replaced. At most `fuel`
characters are read, so the length of the pattern is enough. -/
def writeFields (m : Moment) : Nat → List Char → List Char
  | 0, cs => cs
  | _, [] => []
  | fuel + 1, '%' :: rest =>
    let (style, more) := readStyle rest
    match more with
    | [] => style.place ('%' :: rest)
    | letter :: more =>
      let verbatim := '%' :: rest.take (rest.length - more.length)
      (field? m style letter).getD (style.place verbatim) ++ writeFields m fuel more
  | fuel + 1, c :: rest => c :: writeFields m fuel rest

def fillZone (m : Moment) : List Char → List Char
  | '%' :: 'f' :: rest => (zeroPadded 6 m.clock.microsecond).toList ++ fillZone m rest
  | '%' :: 'z' :: rest =>
    ((m.offset.map (offsetText "")).getD "").toList ++ fillZone m rest
  | '%' :: 'Z' :: rest => ((m.offset.map offsetName).getD "").toList ++ fillZone m rest
  | '%' :: c :: rest => '%' :: c :: fillZone m rest
  | c :: rest => c :: fillZone m rest
  | [] => []

def Moment.write (m : Moment) (pattern : String) : String :=
  let cs := fillZone m pattern.toList
  String.ofList (writeFields m cs.length cs)

end Transclude.Time
