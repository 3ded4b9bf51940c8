import Transclude.Text.Quoted

/-!
# Dates and times

Days from the year 1 to the year 9999, times of day to the microsecond, and moments that may carry an offset from
universal time. A date that does not exist has a fault.
-/

namespace Transclude.Time

inductive Fault where
  | year (n : Nat)
  | month
  | day
  | hour
  | minute
  | second
  | offset (microseconds : Int)
deriving Repr, DecidableEq

def isLeap (year : Nat) : Bool :=
  year % 4 == 0 && (year % 100 != 0 || year % 400 == 0)

def monthStarts : List Nat := [0, 31, 59, 90, 120, 151, 181, 212, 243, 273, 304, 334]

def daysInMonth (year month : Nat) : Nat :=
  if month == 2 then (if isLeap year then 29 else 28)
  else if [4, 6, 9, 11].contains month then 30 else 31

structure Date where
  year : Nat
  month : Nat
  day : Nat
deriving Repr, DecidableEq, Inhabited

structure Clock where
  hour : Nat
  minute : Nat
  second : Nat
  microsecond : Nat
deriving Repr, DecidableEq, Inhabited

structure Moment where
  date : Date
  clock : Clock
  offset : Option Int
deriving Repr, DecidableEq, Inhabited

def Date.ofYmd (year month day : Nat) : Except Fault Date :=
  if year < 1 || year > 9999 then .error (.year year)
  else if month < 1 || month > 12 then .error .month
  else if day < 1 || day > daysInMonth year month then .error .day
  else .ok { year, month, day }

def Clock.ofParts (hour minute second microsecond : Nat) : Except Fault Clock :=
  if hour > 23 then .error .hour
  else if minute > 59 then .error .minute
  else if second > 59 then .error .second
  else .ok { hour, minute, second, microsecond }

def dayMicroseconds : Int := 86400000000

def checkOffset (microseconds : Int) : Except Fault Int :=
  if microseconds.natAbs < dayMicroseconds.toNat then .ok microseconds
  else .error (.offset microseconds)

/-! ## Counting days -/

def daysBeforeYear (year : Nat) : Nat :=
  let y := year - 1
  y * 365 + y / 4 - y / 100 + y / 400

def daysBeforeMonth (year month : Nat) : Nat :=
  monthStarts.getD (month - 1) 0 + (if month > 2 && isLeap year then 1 else 0)

def Date.dayOfYear (d : Date) : Nat :=
  daysBeforeMonth d.year d.month + d.day

def Date.ordinal (d : Date) : Nat :=
  daysBeforeYear d.year + d.dayOfYear

def Date.weekday (d : Date) : Nat :=
  (d.ordinal + 6) % 7

/-- The month and day of the day `n` of a year, counted from one. -/
def monthDay (year n : Nat) : Nat × Nat :=
  let month := ((List.range 12).filter fun m => daysBeforeMonth year (m + 1) < n).length
  (month, n - daysBeforeMonth year month)

def firstMonday (year : Nat) : Int :=
  let first : Int := daysBeforeYear year + 1
  let weekday := (first + 6) % 7
  let monday := first - weekday
  if weekday > 3 then monday + 7 else monday

def Date.isoWeek (d : Date) : Nat × Nat :=
  let n : Int := d.ordinal
  let start := firstMonday d.year
  if n < start then (d.year - 1, ((n - firstMonday (d.year - 1)) / 7).toNat + 1)
  else if n ≥ firstMonday (d.year + 1) then (d.year + 1, 1)
  else (d.year, ((n - start) / 7).toNat + 1)

def weeksInYear (year : Nat) : Nat :=
  ((firstMonday (year + 1) - firstMonday year) / 7).toNat

def Date.ofIsoWeek? (year week day : Nat) : Option Date :=
  if year < 1 || year > 9999 || week < 1 || week > weeksInYear year || day < 1 || day > 7 then none
  else
    let n : Int := firstMonday year + (week - 1) * 7 + (day - 1)
    if n < 1 then none
    else
      let start := daysBeforeYear year
      let (year, n) :=
        if n.toNat > daysBeforeYear (year + 1) then (year + 1, n.toNat - daysBeforeYear (year + 1))
        else if n.toNat ≤ start then (year - 1, n.toNat - daysBeforeYear (year - 1))
        else (year, n.toNat - start)
      if year < 1 || year > 9999 then none
      else
        let (month, day) := monthDay year n
        some { year, month, day }

/-! ## Text -/

def zeroPadded (width n : Nat) : String :=
  let digits := Nat.toDigits 10 n
  String.ofList (List.replicate (width - digits.length) '0' ++ digits)

def Date.text (d : Date) : String :=
  s!"{zeroPadded 4 d.year}-{zeroPadded 2 d.month}-{zeroPadded 2 d.day}"

def Clock.text (c : Clock) : String :=
  let whole := s!"{zeroPadded 2 c.hour}:{zeroPadded 2 c.minute}:{zeroPadded 2 c.second}"
  if c.microsecond = 0 then whole else s!"{whole}.{zeroPadded 6 c.microsecond}"

/-- An offset with its sign, the hours, minutes and what there is of seconds, divided by `sep`. -/
def offsetText (sep : String) (offset : Int) : String :=
  let sign := if offset < 0 then "-" else "+"
  let n := offset.natAbs
  let seconds := n / 1000000
  let micro := n % 1000000
  let base := s!"{sign}{zeroPadded 2 (seconds / 3600)}{sep}{zeroPadded 2 (seconds / 60 % 60)}"
  if micro != 0 then s!"{base}{sep}{zeroPadded 2 (seconds % 60)}.{zeroPadded 6 micro}"
  else if seconds % 60 != 0 then s!"{base}{sep}{zeroPadded 2 (seconds % 60)}"
  else base

def offsetColon : String := ":"

def Moment.textWith (sep : String) (m : Moment) : String :=
  let offset :=
    match m.offset with
    | some o => offsetText offsetColon o
    | none => ""
  s!"{m.date.text}{sep}{m.clock.text}{offset}"

def Moment.text (m : Moment) : String :=
  m.textWith " "

def offsetName (offset : Int) : String :=
  if offset = 0 then "UTC" else s!"UTC{offsetText offsetColon offset}"

def spanText (microseconds : Int) : String :=
  let days := microseconds / dayMicroseconds
  let rest := (microseconds % dayMicroseconds).toNat
  let parts :=
    (if days ≠ 0 then [s!"days={days}"] else []) ++
    (if rest / 1000000 ≠ 0 then [s!"seconds={rest / 1000000}"] else []) ++
    (if rest % 1000000 ≠ 0 then [s!"microseconds={rest % 1000000}"] else [])
  let body := if parts.isEmpty then "0" else ", ".intercalate parts
  s!"datetime.timedelta({body})"

def Fault.message : Fault → String
  | .year n => s!"year {n} is out of range"
  | .month => "month must be in 1..12"
  | .day => "day is out of range for month"
  | .hour => "hour must be in 0..23"
  | .minute => "minute must be in 0..59"
  | .second => "second must be in 0..59"
  | .offset n =>
    "offset must be a timedelta strictly between -timedelta(hours=24) and timedelta(hours=24), " ++
      s!"not {spanText n}."

end Transclude.Time
